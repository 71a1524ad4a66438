import Ebml.Proofs.Scanner.Ending
import Ebml.Source.Stream

/-!
# Bounds on what a scanner holds

The header window never holds more than the longest header, masters open before the current element
starts, and no element ends further beyond the bytes read than a size field can say (`Bounded`). Every
transition keeps these bounds (`Transition.bounded`), so they hold in every course.

Two things follow. The checks of a scanner against states that make no sense never fire, whatever a
source answers and however often a failure is retried (`invalidState_unreachable`); and offsets,
which are sums of byte counts and declared lengths, stay small as long as not too much was read.
-/

namespace Ebml

/-! ## The window takes bytes one by one -/

namespace HeaderWindow

/-- Bytes for which there is room enter the window one by one. -/
theorem foldlM_push? {w : HeaderWindow} {bytes : Bytes}
    (h : w.bytes.length + bytes.length ≤ maxHeaderLength) :
    bytes.foldlM push? w = some ⟨w.start, w.bytes ++ bytes⟩ := by
  induction bytes generalizing w with
  | nil => simp
  | cons b rest ih =>
    rw [List.length_cons] at h
    have hpush : w.push? b = some ⟨w.start, w.bytes ++ [b]⟩ := if_pos (by omega)
    have hroom : (w.bytes ++ [b]).length + rest.length ≤ maxHeaderLength := by
      rw [List.length_append, List.length_singleton]
      omega
    simpa [hpush] using @ih ⟨w.start, w.bytes ++ [b]⟩ hroom

end HeaderWindow

/-- A size field says less than the pattern of the widest one. -/
theorem IsField.known_lt {field : Bytes} {n : Nat} (h : IsSizeField field)
    (hsize : DataSize.ofField field = .known n) : n < unknownPattern maxSizeWidth := by
  have hwidth : field.length ≤ 8 := h.le_limit
  have hlt : beNat field % 2 ^ (7 * field.length) < 2 ^ (7 * field.length) :=
    Nat.mod_lt _ (Nat.two_pow_pos _)
  simp only [DataSize.ofField] at hsize
  split at hsize
  · simp at hsize
  · rename_i hne
    obtain rfl := DataSize.known.inj hsize
    have hle : 2 ^ (7 * field.length) ≤ 2 ^ (7 * 8) :=
      Nat.pow_le_pow_right (by omega) (by omega)
    -- In the widest field the pattern itself is what stands for the unknown length.
    simp only [unknownPattern, maxSizeWidth] at hne ⊢
    omega

namespace Scanner

/-! ## The bounds -/

/-- Where the current element ends, once its header was read. -/
def currentStop? (t : Scanner) : Option Nat :=
  match t.phase with
  | .resolve _ size _ => size.known?.map (t.window.stop + ·)
  | .content _ stop => stop
  | .finished _ => some t.consumed
  | _ => none

/-- An offset lies less beyond the first `consumed` bytes than a size field can say. -/
def Near (consumed offset : Nat) : Prop :=
  offset < consumed + unknownPattern maxSizeWidth

/-- The window has room for a header, and offsets are near what was read. -/
structure Bounded (t : Scanner) : Prop where
  length_le : t.window.bytes.length ≤ maxHeaderLength
  stop_le : t.window.stop ≤ t.consumed
  contentStart_le : ∀ m ∈ t.stack, m.contentStart ≤ t.window.start
  stop_near : ∀ m ∈ t.stack, ∀ stop, m.stop? = some stop → Near t.consumed stop
  current_near : ∀ stop, t.currentStop? = some stop → Near t.consumed stop

theorem near_of_known {consumed offset n : Nat} (hoffset : offset ≤ consumed)
    (h : n < unknownPattern maxSizeWidth) : Near consumed (offset + n) :=
  Nat.add_lt_add_of_le_of_lt hoffset h

theorem near_self (consumed : Nat) : Near consumed consumed :=
  near_of_known (Nat.le_refl consumed) (n := 0) (by decide)

theorem Near.mono {consumed consumed' offset : Nat} (h : Near consumed offset)
    (hconsumed : consumed ≤ consumed') : Near consumed' offset :=
  Nat.lt_of_lt_of_le h (Nat.add_le_add_right hconsumed _)

theorem bounded_fresh (schema : Schema) (maxChunk : Nat) : (fresh schema maxChunk).Bounded :=
  ⟨by simp [fresh], by simp [fresh, HeaderWindow.stop], by simp [fresh], by simp [fresh],
    by simp [fresh, currentStop?]⟩

namespace Bounded

variable {t t' : Scanner}

/-- Without a new master the bounds are kept if window and current element keep theirs. -/
theorem advance (h : t.Bounded) (hstack : ∀ m ∈ t'.stack, m ∈ t.stack)
    (hconsumed : t.consumed ≤ t'.consumed) (hstart : t.window.start ≤ t'.window.start)
    (hlength : t'.window.bytes.length ≤ maxHeaderLength) (hstop : t'.window.stop ≤ t'.consumed)
    (hcurrent : ∀ stop, t'.currentStop? = some stop → Near t'.consumed stop) : t'.Bounded where
  length_le := hlength
  stop_le := hstop
  contentStart_le m hm := Nat.le_trans (h.contentStart_le m (hstack m hm)) hstart
  stop_near m hm stop hm' := (h.stop_near m (hstack m hm) stop hm').mono hconsumed
  current_near := hcurrent

theorem start_le (h : t.Bounded) : t.window.start ≤ t.consumed :=
  Nat.le_trans (Nat.le_add_right _ _) h.stop_le

theorem atBoundary (h : t.Bounded) : t.atBoundary.Bounded :=
  h.advance (fun _ hm => hm) (Nat.le_refl _) h.start_le (Nat.zero_le _) (Nat.le_refl _)
    (by simp [currentStop?, Scanner.atBoundary])

theorem close (h : t.Bounded) : t.close.2.Bounded := by
  unfold Scanner.close
  split
  · exact h
  · exact h.advance (by simp) (Nat.le_refl _) (Nat.le_refl _) h.length_le h.stop_le
      (by simp [currentStop?])

/-- More bytes of a header are read, and then perhaps its phase changes. -/
theorem absorb (h : t.Bounded) {bytes : Bytes} (hstack : t'.stack = t.stack)
    (hconsumed : t'.consumed = t.consumed + bytes.length)
    (hwindow : t'.window = (t.absorb bytes).window)
    (hroom : t.window.bytes.length + bytes.length ≤ maxHeaderLength)
    (hcurrent : ∀ stop, t'.currentStop? = some stop → Near t'.consumed stop) : t'.Bounded := by
  have hstop := h.stop_le
  simp only [HeaderWindow.stop] at hstop
  refine h.advance (fun m hm => hstack ▸ hm) (by omega) (by rw [hwindow]; exact Nat.le_refl _) ?_ ?_
    hcurrent
  · rw [hwindow, window_bytes_absorb, List.length_append]
    exact hroom
  · rw [hwindow, HeaderWindow.stop, window_bytes_absorb, List.length_append, start_absorb]
    omega

end Bounded

/-! ## Every transition keeps the bounds -/

/-- The id of a header is being read, or its size. -/
def InField (t : Scanner) : Prop :=
  t.phase = .id ∨ ∃ id width number, t.phase = .size id width number

/-- A field of which bytes are lacking is shorter than the widest. -/
theorem length_lt_of_lacking {limit : Nat} {tooWide : Nat → VintError} {bytes : Bytes}
    (hpos : 0 < limit) (h : splitField limit tooWide bytes = .ok none) : bytes.length < limit := by
  cases bytes with
  | nil => exact hpos
  | cons first more =>
    obtain ⟨hwide, hshort⟩ := splitField_none h
    omega

namespace Transition

variable {t t' : Scanner} {bytes : Bytes} {outcome : Except ScanError Progress}

/-- In a header there is room for all bytes that come, and they are in the window afterwards. -/
theorem absorbs (h : Transition t bytes outcome t') (hco : t.Coherent) (hb : t.Bounded)
    (hfield : t.InField) :
    t.window.bytes.length + bytes.length ≤ maxHeaderLength ∧
      t'.window = (t.absorb bytes).window := by
  have hlength := hb.length_le
  -- An id of four bytes leaves room for a size of eight.
  have hmax : maxHeaderLength = 12 := rfl
  cases h with
  | closeExhausted => exact ⟨hlength, by rw [absorb_nil]⟩
  | idLacking _ _ hnone =>
    have hlt := length_lt_of_lacking (by decide) hnone
    simp only [List.length_append, maxIdWidth] at hlt
    exact ⟨by omega, rfl⟩
  | idSpoilt _ _ _ hfirst =>
    rcases hfirst with rfl | ⟨hempty, hone⟩
    · exact ⟨hlength, rfl⟩
    · exact ⟨by simp [hempty, hone, hmax], rfl⟩
  | idRead _ _ hid =>
    have hle := hid.le_limit
    simp only [List.length_append, maxIdWidth] at hle
    exact ⟨by omega, rfl⟩
  | sizeLacking hphase hwindow hnone =>
    obtain ⟨-, -, -, hid, -⟩ := hco.of_size hphase hwindow
    have hle : _ ≤ 4 := hid.le_limit
    have hlt := length_lt_of_lacking (by decide) hnone
    simp only [List.length_append, maxSizeWidth] at hlt
    exact ⟨by rw [hwindow, List.length_append]; omega, rfl⟩
  | sizeSpoilt hphase hwindow _ hfirst =>
    obtain ⟨-, -, -, hid, -⟩ := hco.of_size hphase hwindow
    have hle : _ ≤ 4 := hid.le_limit
    rcases hfirst with rfl | ⟨rfl, hone⟩
    · exact ⟨hlength, rfl⟩
    · exact ⟨by rw [hwindow, List.append_nil]; omega, rfl⟩
  | sizeRead hphase hwindow hsize =>
    obtain ⟨-, -, -, hid, -⟩ := hco.of_size hphase hwindow
    have hle : _ ≤ 4 := hid.le_limit
    have hle' := hsize.le_limit
    simp only [List.length_append, maxSizeWidth] at hle'
    exact ⟨by rw [hwindow, List.length_append]; omega, rfl⟩
  | skip hphase => simp [InField, hphase] at hfield
  | refuseUnresolved hphase => simp [InField, hphase] at hfield
  | refuseLeaf hphase => simp [InField, hphase] at hfield
  | closeLevel hphase => simp [InField, hphase] at hfield
  | enterMaster hphase => simp [InField, hphase] at hfield
  | enterLeaf hphase => simp [InField, hphase] at hfield
  | contentOver hphase => simp [InField, hphase] at hfield
  | contentLacking hphase => simp [InField, hphase] at hfield
  | contentRead hphase => simp [InField, hphase] at hfield
  | finish hphase => simp [InField, hphase] at hfield

/-- Every transition keeps the bounds. -/
theorem bounded (h : Transition t bytes outcome t') (hco : t.Coherent) (hb : t.Bounded) :
    t'.Bounded := by
  have habsorbs := h.absorbs hco hb
  have hconsumed : t.consumed ≤ t.consumed + bytes.length := Nat.le_add_right _ _
  have hnear := hb.current_near
  -- A transition of a header changes the window alone. The others begin at a boundary or go on
  -- behind one, with the offsets of before but for the end that a size announces.
  cases h with
  | closeExhausted hphase _ _ hstack =>
    exact hb.advance (fun m hm => hstack ▸ List.mem_cons_of_mem _ hm) (Nat.le_refl _) (Nat.le_refl _)
      hb.length_le hb.stop_le (by simp [currentStop?, hphase])
  | idLacking hphase =>
    exact hb.absorb rfl rfl rfl (habsorbs (.inl hphase)).1 (by simp [currentStop?, waiting, hphase])
  | idSpoilt hphase =>
    exact hb.absorb rfl rfl rfl (habsorbs (.inl hphase)).1 (by simp [currentStop?, hphase])
  | idRead hphase =>
    exact hb.absorb rfl rfl rfl (habsorbs (.inl hphase)).1 (by simp [currentStop?])
  | sizeLacking hphase =>
    exact hb.absorb rfl rfl rfl (habsorbs (.inr ⟨_, _, _, hphase⟩)).1 (by simp [currentStop?, hphase])
  | sizeSpoilt hphase =>
    exact hb.absorb rfl rfl rfl (habsorbs (.inr ⟨_, _, _, hphase⟩)).1 (by simp [currentStop?, hphase])
  | sizeRead hphase hwindow hsize =>
    refine hb.absorb rfl rfl rfl (habsorbs (.inr ⟨_, _, _, hphase⟩)).1 fun stop hstop => ?_
    -- A size that is known is below the largest of 8 bytes, and so near is the end.
    simp only [currentStop?, Option.map_eq_some_iff] at hstop
    obtain ⟨n, hn, rfl⟩ := hstop
    have hstop := stop_absorb (hco.of_size hphase hwindow).1 bytes
    refine near_of_known (Nat.le_of_eq hstop) (hsize.known_lt ?_)
    cases hknown : DataSize.ofField _ with
    | unknown => simp [hknown, DataSize.known?] at hn
    | known length => rw [hknown] at hn; rw [Option.some.inj hn]
  | skip hphase =>
    simp only [currentStop?, hphase, DataSize.known?, Option.map_some, Option.some.injEq,
      forall_eq'] at hnear
    exact hb.advance (fun _ hm => hm) (Nat.le_refl _) (Nat.le_refl _) hb.length_le hb.stop_le
      (by simpa [currentStop?] using hnear)
  | refuseUnresolved => exact hb
  | refuseLeaf => exact hb
  | closeLevel hphase _ _ hstack =>
    exact hb.advance (fun m hm => hstack ▸ List.mem_cons_of_mem _ hm) (Nat.le_refl _) (Nat.le_refl _)
      hb.length_le hb.stop_le (by simpa [currentStop?, hphase] using hnear)
  | @enterMaster id index size decl hphase =>
    simp only [currentStop?, hphase] at hnear
    refine ⟨Nat.zero_le _, Nat.le_refl _, fun m hm => ?_, fun m hm stop hstop => ?_,
      by simp [currentStop?, atBoundary]⟩
    · rcases List.mem_cons.mp hm with rfl | hm
      · exact hb.stop_le
      · exact Nat.le_trans (hb.contentStart_le m hm) hb.start_le
    · rcases List.mem_cons.mp hm with rfl | hm
      · exact hnear stop hstop
      · exact hb.stop_near m hm stop hstop
  | enterLeaf hphase =>
    simp only [currentStop?, hphase, DataSize.known?, Option.map_some, Option.some.injEq,
      forall_eq'] at hnear
    exact hb.advance (fun _ hm => hm) (Nat.le_refl _) (Nat.le_refl _) hb.length_le hb.stop_le
      (by simpa [currentStop?] using hnear)
  | contentOver =>
    exact hb.advance (fun _ hm => hm) (Nat.le_refl _) (Nat.le_refl _) hb.length_le hb.stop_le
      (by simpa [currentStop?] using near_self t.consumed)
  | contentLacking => exact hb
  | @contentRead leaf stop _ hphase =>
    refine hb.advance (fun _ hm => hm) hconsumed (Nat.le_refl _) hb.length_le
      (Nat.le_trans hb.stop_le hconsumed) fun stop' hstop' => ?_
    by_cases hover : stop ≤ t.consumed + bytes.length
    · obtain rfl : t.consumed + bytes.length = stop' := by simpa [currentStop?, hover] using hstop'
      exact near_self _
    · obtain rfl : stop = stop' := by simpa [currentStop?, hover] using hstop'
      exact (hnear stop (by simp [currentStop?, hphase])).mono hconsumed
  | finish => exact hb.atBoundary

end Transition

theorem Course.bounded {start t : Scanner} {moments : List Moment} (h : Course start moments t)
    (hsound : start.Sound) (hstart : start.Bounded) : t.Bounded := by
  induction h with
  | begin => exact hstart
  | @step σ _ s _ t hopen hcourse ih =>
    have hco := (hcourse.sound hsound).coherent hopen
    obtain ⟨_, -, htransition⟩ := @step_transition σ _ t s hco
    exact htransition.bounded hco ih
  | close _ ih => exact ih.close

/-! ## No check fails -/

/-- No transition finds a state that makes no sense. -/
theorem Transition.ne_invalidState {t t' : Scanner} {bytes : Bytes}
    {outcome : Except ScanError Progress} (h : Transition t bytes outcome t') (detail : String)
    (offset : Nat) : outcome ≠ .error (.invalidState detail offset) := by
  rintro rfl
  cases h with
  | idLacking _ _ _ hwaits => cases hwaits
  | sizeLacking _ _ _ hwaits => cases hwaits
  | contentLacking _ _ hwaits => cases hwaits

theorem step_ne_invalidState {σ : Type} [ByteSource σ] {t : Scanner} (h : t.Coherent) (s : σ)
    (detail : String) (offset : Nat) : (step t s).outcome ≠ .error (.invalidState detail offset) := by
  obtain ⟨_, -, htransition⟩ := @step_transition σ _ t s h
  exact htransition.ne_invalidState detail offset

/-- A parse fails only as one of its steps does. -/
theorem parse_ne_invalidState {σ κ : Type} [FiniteSource σ] (r : Receiver κ) {t : Scanner}
    (h : t.Sound) (s : σ) (k : κ) (detail : String) (offset : Nat) :
    (parse r t s k).outcome ≠ .error (.invalidState detail offset) := by
  by_cases hclosed : t.closed = true
  · simp [parse_of_closed r s k hclosed]
  · rw [parse, if_neg hclosed]
    have hco := h.coherent (by simpa using hclosed)
    obtain ⟨_, _, t', s', k', -, htrail, -, hend⟩ := run_spec r t s k hco
    generalize run r t s k = p at hend
    cases hend with
    | paused => simp
    | stalled => simp
    | failed _ houtcome =>
      have hne := step_ne_invalidState (htrail.coherent hco) s' detail offset
      rw [houtcome] at hne
      simpa using hne

/-- The offsets that decide when elements end: where the content of an open master or of the current
element starts and, if its length is known, where it ends. -/
def offsets (t : Scanner) : List Nat :=
  t.stack.flatMap (fun m => m.contentStart :: m.stop?.toList) ++
    t.window.stop :: t.currentStop?.toList

theorem Bounded.offsets_near {t : Scanner} (h : t.Bounded) {offset : Nat} (hmem : offset ∈ t.offsets) :
    Near t.consumed offset := by
  have hself := near_self t.consumed
  have hread : ∀ {n}, n ≤ t.consumed → Near t.consumed n := fun hle => Nat.lt_of_le_of_lt hle hself
  rcases List.mem_append.mp hmem with hmaster | hcurrent
  · obtain ⟨m, hm, hoffset⟩ := List.mem_flatMap.mp hmaster
    rcases List.mem_cons.mp hoffset with rfl | hstop
    · exact hread (Nat.le_trans (h.contentStart_le m hm) h.start_le)
    · exact h.stop_near m hm offset (by simpa using hstop)
  · rcases List.mem_cons.mp hcurrent with rfl | hstop
    · exact hread h.stop_le
    · exact h.current_near offset (by simpa using hstop)

/-- Invalid states are not reachable. However a scanner was used, over whatever sources and however
these answered, no parse fails with an invalid state and neither does a step, be its source endless:
an element that has its id read has the latest number, data that is read has an end, and the header
window takes every byte that a step gets for it. Before `2 ^ 63` bytes are read all offsets fit into
64 bits. -/
theorem invalidState_unreachable (schema : Schema) (maxChunk : Nat) :
    (∀ log t, Session (fresh schema maxChunk) log t →
      ∀ (σ κ : Type) [FiniteSource σ] (r : Receiver κ) (s : σ) (k : κ) (detail : String)
        (offset : Nat), (parse r t s k).outcome ≠ .error (.invalidState detail offset)) ∧
    ∀ moments t, Course (fresh schema maxChunk) moments t →
      (t.closed = false →
        (∀ id width number, t.phase = .size id width number →
          ∃ index, number = some index ∧ t.given = index + 1) ∧
        (∀ id size number, t.phase = .resolve id size number →
          ∃ index, number = some index ∧ t.given = index + 1) ∧
        (∀ leaf stop, t.phase = .content leaf stop → ∃ offset, stop = some offset) ∧
        ∀ (σ : Type) [ByteSource σ] (s : σ),
          (∀ detail offset, (step t s).outcome ≠ .error (.invalidState detail offset)) ∧
          (t.InField → ∃ bytes, Hands s bytes (step t s).source ∧
            bytes.foldlM HeaderWindow.push? t.window = some (step t s).scanner.window)) ∧
      (t.consumed < 2 ^ 63 → ∀ offset ∈ t.offsets, offset < 2 ^ 64) := by
  have hsound := sound_fresh schema maxChunk
  refine ⟨fun log t hsession σ κ _ r s k => parse_ne_invalidState r (hsession.sound hsound) s k, ?_⟩
  intro moments t hcourse
  have hbounded := hcourse.bounded hsound (bounded_fresh schema maxChunk)
  refine ⟨fun hopen => ?_, fun hread offset hmem => ?_⟩
  · have hco := (hcourse.sound hsound).coherent hopen
    refine ⟨fun _ _ _ => hco.latest_of_size, fun _ _ _ => hco.latest_of_resolve,
      fun _ _ => hco.stop_of_content, fun σ _ s => ⟨step_ne_invalidState hco s, fun hfield => ?_⟩⟩
    obtain ⟨bytes, hhands, htransition⟩ := @step_transition σ _ t s hco
    obtain ⟨hroom, hwindow⟩ := htransition.absorbs hco hbounded hfield
    exact ⟨bytes, hhands, by rw [hwindow]; exact HeaderWindow.foldlM_push? hroom⟩
  · have hnear := hbounded.offsets_near hmem
    simp only [Near, unknownPattern, maxSizeWidth] at hnear
    omega

/-- A parse of a stream with a receiver that keeps every callback. -/
def parseStream (t : Scanner) (s : StreamSource) : Parsed StreamSource (Watch Collector) :=
  parse Collector.receiver.watched t s { state := .ofConfig {} }

theorem Session.parseStream {start t : Scanner} {log : List Event} (h : Session start log t)
    (s : StreamSource) :
    Session start (log ++ (t.parseStream s).receiver.callbacks) (t.parseStream s).scanner :=
  h.parse Collector.receiver s _

/-- A master that declares as much as a size field can, from a stream that fails between its id and its
size. -/
def tornSource : StreamSource :=
  .ofStream ⟨[.bytes [0x1A, 0x45, 0xDF, 0xA3], .failure ⟨.connectionReset, "reset by peer"⟩,
    .bytes [0x01, 0xFF, 0xFF, 0xFF, 0xFF, 0xFF, 0xFF, 0xFE]], 0⟩ 8

/-- The parse of `tornSource` up to the failure. -/
def tornParse : Parsed StreamSource (Watch Collector) :=
  parseStream (fresh Matroska.schema 1) tornSource

/-- The parse that goes on behind the failure. -/
def repeatedParse : Parsed StreamSource (Watch Collector) :=
  parseStream tornParse.scanner tornParse.source

/-- At the failure the master has its number, and the step behind the failure puts its size into the
header window. The parse that goes on comes to the largest offsets that a master can have. -/
theorem invalidState_unreachable_of_longest_header :
    tornParse.outcome = .error (.io ⟨.connectionReset, "reset by peer"⟩) ∧
      tornParse.scanner.phase = .size 0x1A45DFA3 4 (some 0) ∧ tornParse.scanner.given = 1 ∧
      (∃ bytes : Bytes, bytes.foldlM HeaderWindow.push? tornParse.scanner.window =
        some (step tornParse.scanner tornParse.source).scanner.window) ∧
      (∀ detail offset, repeatedParse.outcome ≠ .error (.invalidState detail offset)) ∧
      repeatedParse.scanner.stack.map (fun m => (m.contentStart, m.size)) =
        [(12, .known (2 ^ 56 - 2))] ∧
      ∀ offset ∈ repeatedParse.scanner.offsets, offset < 2 ^ 64 := by
  obtain ⟨hparse, hcourses⟩ := invalidState_unreachable Matroska.schema 1
  have htorn : Session (fresh Matroska.schema 1) _ tornParse.scanner := Session.begin.parseStream _
  have hphase : tornParse.scanner.phase = .size 0x1A45DFA3 4 (some 0) := by cbv
  obtain ⟨moments, hcourse, -⟩ := htorn.course
  obtain ⟨hnumbered, -, -, hsteps⟩ := (hcourses moments _ hcourse).1 (by cbv)
  obtain ⟨index, hindex, hgiven⟩ := hnumbered _ _ _ hphase
  obtain rfl := Option.some.inj hindex
  obtain ⟨bytes, -, hpushed⟩ :=
    (hsteps StreamSource tornParse.source).2 (.inr ⟨_, _, _, hphase⟩)
  obtain ⟨moments', hcourse', -⟩ := (htorn.parseStream tornParse.source).course
  exact ⟨by cbv, hphase, hgiven, ⟨bytes, hpushed⟩, hparse _ _ htorn StreamSource _ _ _ _, by cbv,
    (hcourses moments' _ hcourse').2 (by cbv)⟩

end Scanner

end Ebml
