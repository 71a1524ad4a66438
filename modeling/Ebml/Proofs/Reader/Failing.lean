import Ebml.Proofs.Reader.Choosing
import Ebml.Proofs.Reader.Offering
import Ebml.Proofs.Reader.Serving
import Ebml.Proofs.Reader.Waiting
import Ebml.Proofs.Scanner.Bounds
import Ebml.Proofs.Scanner.Calming

/-!
# Readers of streams that fail

A reader of a stream that fails before its end takes all bytes in front of the failure, unless it
comes upon what cannot be read there, and then reports the failure (`Ends`). It asks for more bytes
whenever it holds none, also behind an element that it has handed out. So where it stops, the bytes
may still decide something that was not looked at (`Brink`): ends of masters, and then the start of
one element and, if that has no data, its end. How far a reader gets depends on the elements at which
it pauses, so one that leaves some out may get further. What it then hands out in addition has no data
(`Brink.compare`, `offered_of_failure`).
-/

namespace Ebml

namespace Reader

open Scanner (Trail Transition Bytewise)

variable {c : ReaderConfig} {input : Bytes} {e : IoError}

/-! ## Where a reader stops -/

/-- An event for which an element shows took no byte, and no leaf is open behind it. -/
theorem boundary_of_shows {t t' : Scanner} {bytes : Bytes} {event : Event} {k : Collector}
    (h : Transition t bytes (.ok (.moved [event])) t')
    (hshows : (Collector.handle event k).pending ≠ k.pending) :
    bytes = [] ∧ t'.openLeaf? = none := by
  generalize houtcome : (Except.ok (.moved [event]) : Except ScanError Progress) = outcome at h
  cases h with
  | closeExhausted hphase => exact ⟨rfl, by simp [Scanner.openLeaf?, hphase]⟩
  | closeLevel hphase => exact ⟨rfl, by simp [Scanner.openLeaf?, hphase]⟩
  | enterMaster => exact ⟨rfl, rfl⟩
  | finish => exact ⟨rfl, rfl⟩
  | @enterLeaf _ n index decl _ _ hleaf =>
    -- A leaf that starts is collected, and it waits only once it ended.
    obtain rfl : event = _ := by simpa using houtcome
    refine absurd ?_ hshows
    cases hwants : k.wants decl.id with
    | false => rw [Collector.handle_start_unwanted hwants]
    | true => rw [Collector.handle_start_leaf hwants hleaf]
  | @contentRead leaf =>
    cases leaf with
    | none => simp at houtcome
    | some o =>
      obtain rfl : event = .content o bytes := by simpa using houtcome
      exact absurd (k.pending_handle_content o bytes) hshows
  | idLacking _ _ _ hwaits => cases hwaits <;> simp at houtcome
  | sizeLacking _ _ _ hwaits => cases hwaits <;> simp at houtcome
  | contentLacking _ _ hwaits => cases hwaits <;> simp at houtcome
  | _ => simp at houtcome

/-- The last that was told brought an element, when all of these bytes were taken already. -/
structure Brought (c : ReaderConfig) (bytes : Bytes) (log : List Event) (t : Scanner) : Prop where
  closed : t.openLeaf? = none
  front : ∃ before event t₀, log = before ++ [event] ∧ Trail (beginning c) bytes before t₀ ∧
    (made c before).length < (made c log).length

/-- Where a reader stands that finds no more bytes. It took them all, nothing that it read is spoilt,
and it lacks bytes or has just handed out an element. It handed out no more than one element since it
last held some byte that it had not taken. -/
structure Brink (c : ReaderConfig) (input : Bytes) (log : List Event) : Prop where
  stopped : ∃ t, Trail (beginning c) input log t ∧ t.Calm ∧ (t.Lacking ∨ Brought c input log t)
  recent : made c log = [] ∨
    ∃ before more early t, input = before ++ more ∧ more ≠ [] ∧ Trail (beginning c) before early t ∧
      (made c log).length ≤ (made c early).length + 1

/-- What is read up to there can be read. -/
theorem Brink.reading_ok {log : List Event} (h : Brink c input log) :
    (reading c input).2 = .ok () := by
  obtain ⟨t, htrail, hcalm, -⟩ := h.stopped
  have hreading := reading_of_trail htrail []
  rw [List.append_nil] at hreading
  rw [hreading]
  exact hcalm

/-! ## Two readers -/

section

variable {log log' later : List Event}

theorem exists_made_append
    (h : log'.flatMap Event.bytewise = log.flatMap Event.bytewise ++ later) (c : ReaderConfig) :
    ∃ more, made c log' = made c log ++ more := by
  rw [← made_bytewise c log', h, ← made_bytewise c log]
  exact made_append c _ _

/-- The trails of two readers go through the same moves, so one of them leads on from the other. -/
theorem comparable {t t' : Scanner} {before more : Bytes}
    (h : Trail (beginning c) before log t) (h' : Trail (beginning c) (before ++ more) log' t') :
    (∃ later, log'.flatMap Event.bytewise = log.flatMap Event.bytewise ++ later ∧
        Bytewise t.unnumbered more later t'.unnumbered) ∨
      ∃ later, more = [] ∧ log.flatMap Event.bytewise = log'.flatMap Event.bytewise ++ later ∧
        Bytewise t'.unnumbered [] later t.unnumbered :=
  (h.bytewise (Scanner.coherent_fresh _ _)).comparable (h'.bytewise (Scanner.coherent_fresh _ _))

/-- Where no leaf is open, moves that take no byte make no element with data. -/
theorem exists_made_blank {t t' : Scanner} {bytes : Bytes} (h : Trail (beginning c) bytes log t)
    (hclosed : t.openLeaf? = none)
    (hsame : log'.flatMap Event.bytewise = log.flatMap Event.bytewise ++ later)
    (hlater : Bytewise t.unnumbered [] later t'.unnumbered) :
    ∃ more, made c log' = made c log ++ more ∧ ∀ l, .leaf l ∈ more → l.content = [] := by
  have hidle := (arrived_of_trail h).tracking.idle hclosed
  have hmade : made c log' =
      (Collector.receiver.deliverAll later
        (Collector.receiver.deliverAll log (.ofConfig c))).pending := by
    rw [← made_bytewise, hsame, made, Receiver.deliverAll_append, Collector.deliverAll_bytewise]
  rw [pending_deliverAll] at hmade
  refine ⟨_, hmade, fun l hl => ?_⟩
  have hblank : Collector.Blank
      { Collector.receiver.deliverAll log (.ofConfig c) with pending := [] } :=
    ⟨by simp [hidle], by simp⟩
  exact (hblank.deliverAll hlater.not_content).pending l hl

/-- Where it lacks bytes a reader would tell no more either. -/
theorem eq_nil_or_brought {t t' : Scanner} (h : t.Lacking ∨ Brought c input log t)
    (hlater : Bytewise t.unnumbered [] later t'.unnumbered) : later = [] ∨ Brought c input log t :=
  h.imp_left fun hlacking => (hlater.eq_of_rests hlacking.atRest.rests).1

/-- A reader that leaves nothing out is never ahead of another one: the last element that the other
one brought, the first one made as well, and after the bytes were all taken it makes no second. -/
theorem Brink.plain_eq {c' : ReaderConfig} {t' : Scanner} (hall : c.filter = none)
    (hbegin : beginning c' = beginning c) (hplain : plain c' = plain c) (h : Brink c input log)
    (hbrought : Brought c' input log' t') (htrail' : Trail (beginning c') input log' t')
    (hsame : log.flatMap Event.bytewise = log'.flatMap Event.bytewise ++ later) :
    made (plain c) log = made (plain c) log' := by
  obtain ⟨before', event, t₀', rfl, hbefore', hlt⟩ := hbrought.front
  obtain ⟨t, htrail, -, -⟩ := h.stopped
  obtain ⟨more, hmore⟩ := exists_made_append hsame (plain c)
  obtain ⟨shown, hshown⟩ := made_append (plain c) before' [event]
  -- What the other reader brought last, it chose among what the first one made.
  have hne : shown ≠ [] := by
    rintro rfl
    rw [List.append_nil] at hshown
    rw [made_eq_choice hbefore', made_eq_choice htrail', hplain, hshown] at hlt
    exact Nat.lt_irrefl _ hlt
  have hpos := List.length_pos_iff.mpr hne
  have hlength := length_made hall htrail
  rw [hmore, hshown, List.length_append, List.length_append] at hlength
  have hlate : (made c log).length ≤ (made (plain c) before').length + 1 := by
    rcases h.recent with hnone | ⟨before, rest, early, t₁, rfl, hrest, hearly, hle⟩
    · simp [hnone]
    · rw [hbegin] at hbefore'
      rcases comparable hearly hbefore' with ⟨_, hfront, -⟩ | ⟨_, hnil, -⟩
      · obtain ⟨since, hsince⟩ := exists_made_append hfront (plain c)
        rw [length_made hall hearly] at hle
        rw [hsince, List.length_append]
        omega
      · exact absurd hnil hrest
  have hnil : more = [] := List.eq_nil_of_length_eq_zero (by omega)
  rw [hmore, hnil, List.append_nil]

/-- Two readers with the same bytes in front of a failure, one of which leaves nothing out, have
chosen among the same elements, but that the other one may have got further, to elements without
data. -/
theorem Brink.compare (hall : c.filter = none) (paths : Bool) (filter : Option (List Nat))
    (h : Brink c input log)
    (h' : Brink { c with capturePaths := paths, filter := filter } input log') :
    ∃ elements more, made c log = (Collector.ofConfig c).choice elements ∧
      made { c with capturePaths := paths, filter := filter } log' =
        (Collector.ofConfig { c with capturePaths := paths, filter := filter }).choice
          (elements ++ more) ∧
      ∀ l, .leaf l ∈ more → l.content = [] := by
  obtain ⟨t, htrail, -, hstop⟩ := h.stopped
  obtain ⟨t', htrail', -, hstop'⟩ := h'.stopped
  rw [made_eq_choice htrail, made_eq_choice htrail']
  have hall' : Trail (beginning c) (input ++ []) log' t' := by
    rw [List.append_nil]
    exact htrail'
  have halike (heq : made (plain c) log = made (plain c) log') :
      ∃ elements more, (Collector.ofConfig c).choice (made (plain c) log) =
          (Collector.ofConfig c).choice elements ∧
        (Collector.ofConfig { c with capturePaths := paths, filter := filter }).choice
            (made (plain c) log') =
          (Collector.ofConfig { c with capturePaths := paths, filter := filter }).choice
            (elements ++ more) ∧
        ∀ l, .leaf l ∈ more → l.content = [] :=
    ⟨made (plain c) log, [], rfl, by rw [heq, List.append_nil], by simp⟩
  -- Both trails go through the same bytes, so one of them is a front of the other.
  rcases comparable htrail hall' with ⟨later, hsame, hlater⟩ | ⟨later, -, hsame, hlater⟩
  · -- The reader that leaves nothing out stopped first: for want of bytes, or since it was brought
    -- an element, and what the other one then went past has no data.
    rcases eq_nil_or_brought hstop hlater with rfl | hbrought
    · refine halike ?_
      rw [← made_bytewise, ← made_bytewise (plain c) log', hsame, List.append_nil]
    · obtain ⟨more, hmore, hblank⟩ :=
        @exists_made_blank (plain c) log log' later t t' input htrail hbrought.closed hsame hlater
      exact ⟨_, more, rfl, congrArg _ hmore, hblank⟩
  · refine halike ?_
    rcases eq_nil_or_brought hstop' hlater with rfl | hbrought
    · rw [← made_bytewise, hsame, List.append_nil, made_bytewise]
    · have hbegin : beginning { c with capturePaths := paths, filter := filter } = beginning c := rfl
      exact h.plain_eq hall hbegin rfl hbrought htrail' hsame

end

/-! ## Reading up to a failure -/

variable {taken : List Element}

/-- How a reader ends that meets the failure `e` behind the input: it reports the failure, or before
that what it cannot read. -/
def Ends (c : ReaderConfig) (input : Bytes) (e : IoError) (taken : List Element)
    (ending : Except ScanError Unit) : Prop :=
  (ending = .error (.io e) ∧ ∃ log, Brink c input log ∧ made c log = taken) ∨
    (ending ≠ .ok () ∧ reading c input = (taken, ending))

/-- A reader on its way to the failure: the bytes that it took, those that are left in front of the
failure, and what its scan has told. Nothing waits in it. -/
structure Approaches (c : ReaderConfig) (input : Bytes) (e : IoError) (taken : List Element)
    (bytes rest : Bytes) (log : List Event) (r : Reader StreamSource) : Prop where
  input_eq : input = bytes ++ rest
  trail : Trail (beginning c) bytes log r.scanner
  fails : r.source.FailsAfter rest e
  collected : Collector.receiver.deliverAll log (.ofConfig c) = r.collector.behind taken
  idle : r.collector.hasPending = false
  brink : rest = [] → Brink c input log

namespace Approaches

variable {bytes rest : Bytes} {log : List Event} {r r' : Reader StreamSource}

theorem coherent (h : Approaches c input e taken bytes rest log r) : r.scanner.Coherent :=
  h.trail.coherent (Scanner.coherent_fresh _ _)

theorem closed_eq (h : Approaches c input e taken bytes rest log r) : r.scanner.closed = false :=
  h.trail.frame.closed_eq

theorem made_eq (h : Approaches c input e taken bytes rest log r) : made c log = taken := by
  have hidle : r.collector.pending = [] := by simpa [Collector.hasPending] using h.idle
  rw [made, h.collected, Collector.behind, hidle, List.append_nil]

/-- What is left was not handed out, so at the end there is nothing. -/
theorem ends (h : Approaches c input e taken bytes [] log r) :
    Ends c input e taken (.error (.io e)) :=
  .inl ⟨rfl, log, h.brink rfl, h.made_eq⟩

/-- Some other source that holds the same bytes in front of the failure does as well. -/
theorem moved (h : Approaches c input e taken bytes rest log r) {s : StreamSource}
    (hfails : s.FailsAfter rest e) :
    Approaches c input e taken bytes rest log { r with source := s } :=
  ⟨h.input_eq, h.trail, hfails, h.collected, h.idle, h.brink⟩

/-- A reader that took bytes behind a byte that was left stands where it has just looked. -/
theorem brink_of_rest (h : Approaches c input e taken bytes rest log r) (hrest : rest ≠ [])
    {log' : List Event} {t : Scanner} (htrail : Trail (beginning c) input log' t) (hcalm : t.Calm)
    (hstop : t.Lacking ∨ Brought c input log' t)
    (hlength : (made c log').length ≤ taken.length + 1) :
    Brink c input log' where
  stopped := ⟨t, htrail, hcalm, hstop⟩
  recent := .inr ⟨bytes, rest, log, r.scanner, h.input_eq, hrest, h.trail, by rwa [h.made_eq]⟩

/-- Asked whether there may be another element, the reader says so and holds some byte, or it fails
because none is left. -/
theorem mayHaveNext (h : Approaches c input e taken bytes rest log r) :
    match r.mayHaveNext with
    | (.ok answer, r') =>
      answer = true ∧ Approaches c input e taken bytes rest log r' ∧ r'.source.buffer ≠ []
    | (.error cause, _) => cause = .io e ∧ rest = [] := by
  have heof := h.fails.eof
  rw [Reader.mayHaveNext, if_neg (by simp [h.idle]), if_neg (by simp [h.closed_eq])]
  generalize ByteSource.eof r.source = answered at heof ⊢
  obtain ⟨outcome, s⟩ := answered
  cases outcome with
  | error cause => exact ⟨congrArg ScanError.io heof.1, heof.2⟩
  | ok answer =>
    obtain ⟨rfl, hfails, hheld⟩ := heof
    exact ⟨rfl, h.moved hfails, hheld⟩

/-- Asked for its progress, the reader tells how many bytes it took, or it fails because none is
left. -/
theorem progress (h : Approaches c input e taken bytes rest log r) :
    match r.progress with
    | (.ok p, r') => p.1 = r.bytesRead ∧ Approaches c input e taken bytes rest log r'
    | (.error cause, _) => cause = .io e ∧ rest = [] := by
  have havailable := h.fails.available
  unfold Reader.progress
  generalize ByteSource.available r.source = answered at havailable ⊢
  obtain ⟨outcome, s⟩ := answered
  cases outcome with
  | error cause => exact ⟨congrArg ScanError.io havailable.1, havailable.2⟩
  | ok ready => exact ⟨rfl, h.moved havailable.1⟩

/-- While the source holds some byte, asking for the progress changes nothing. -/
theorem progress_of_held (hheld : r.source.buffer ≠ []) :
    r.progress = (.ok (r.bytesRead, r.source.buffer.length), r) := by
  rw [Reader.progress, Scanner.available_inHand hheld]

theorem maxChunk_pos (h : Approaches c input e taken bytes rest log r) :
    0 < r.scanner.maxChunk := by
  rw [h.trail.frame.maxChunk_eq]
  exact Nat.lt_of_lt_of_le Nat.one_pos (Nat.le_max_right c.maxChunk 1)

/-- What is told next is collected behind the elements handed out. -/
theorem collected_append (h : Approaches c input e taken bytes rest log r) (events : List Event) :
    Collector.receiver.deliverAll (log ++ events) (.ofConfig c) =
      (Collector.receiver.deliverAll events r.collector).behind taken := by
  rw [Receiver.deliverAll_append, h.collected, Collector.deliverAll_behind]

/-- As long as nothing waits, what was made was handed out. -/
theorem made_append (h : Approaches c input e taken bytes rest log r) {events : List Event}
    (hnone : (Collector.receiver.deliverAll events r.collector).pending = []) :
    made c (log ++ events) = taken := by
  rw [made, h.collected_append, Collector.behind, hnone, List.append_nil]

/-- A scan that stops at an element brings the reader to where it handed that out. -/
theorem of_shown (h : Approaches c input e taken bytes rest log r) (hrest : rest ≠ [])
    (hs : r.scan = (.ok (), r')) (hpending : r'.collector.hasPending = true) :
    ∃ element, r'.pop.1 = some element ∧
      ∃ bytes rest log, Approaches c input e (taken ++ [element]) bytes rest log r'.pop.2 := by
  have hserves := @serves_scan _ _ r (by rw [hs])
  have hpauses := @scan_pauses _ _ r h.coherent h.closed_eq h.idle (by rwa [hs])
  rw [hs] at hserves hpauses
  dsimp only at hserves hpauses
  obtain ⟨more, events, t₀, s₀, last, event, element, hhands, htrail, hnone, hhands', hstep, hheard,
    hone⟩ := hpauses
  -- The last transition shows an element, so it took no byte.
  obtain ⟨rfl, hclosed⟩ := boundary_of_shows hstep (by rw [← hheard, hone, hnone]; simp)
  obtain ⟨rest', rfl, hfails⟩ := h.fails.serves hserves (hhands.trans hhands')
  have hfront := h.trail.trans htrail
  have hlast := hfront.trans (.single hstep)
  have hcollected : Collector.receiver.deliverAll (log ++ events ++ [event]) (.ofConfig c) =
      r'.collector.behind taken := by
    rw [Receiver.deliverAll_append, h.collected_append, hheard]
    exact Collector.handle_behind event taken _
  have hinput : input = bytes ++ more ++ [] ++ rest' := by
    rw [h.input_eq]
    simp
  refine ⟨element, pop_fst hone, _, rest', _, hinput, hlast, hfails,
    hcollected.trans (behind_pop hone taken), by simp [Reader.pop, Collector.pop,
      Collector.hasPending, hone], ?_⟩
  -- If nothing is left in front of the failure, this is as far as the reader gets.
  rintro rfl
  have hmade : made c (log ++ events ++ [event]) = taken ++ [element] := by
    rw [made, hcollected, Collector.behind, hone]
  have hbefore := h.made_append hnone
  rw [List.append_nil] at hinput
  rw [← hinput] at hlast
  rw [List.append_nil] at hinput
  rw [← hinput] at hfront
  refine h.brink_of_rest hrest hlast (hstep.calm (hfront.coherent (Scanner.coherent_fresh _ _)))
    (.inr ⟨hclosed, _, event, t₀, rfl, hfront, ?_⟩) ?_
  · show _ < (made c (log ++ events ++ [event])).length
    rw [hbefore, hmade, List.length_append]
    exact Nat.lt_succ_self _
  · show (made c (log ++ events ++ [event])).length ≤ _
    rw [hmade, List.length_append]
    exact Nat.le_refl _

/-- One that finds no element takes what was held. -/
theorem of_dry (h : Approaches c input e taken bytes rest log r) (hheld : r.source.buffer ≠ [])
    (hs : r.scan = (.ok (), r')) (hpending : r'.collector.hasPending = false) :
    r.bytesRead < r'.bytesRead ∧
      ∃ bytes rest log, Approaches c input e taken bytes rest log r' := by
  have hsound : Sound r := ⟨h.fails.toRegular, h.maxChunk_pos, fun _ => h.coherent,
    fun hclosed => absurd (h.closed_eq.symm.trans hclosed) (by simp)⟩
  obtain ⟨-, hserves, hmoves⟩ := hsound.scan hs
  refine ⟨hmoves h.closed_eq hpending hheld, ?_⟩
  rw [scan_eq_run h.closed_eq] at hs
  obtain ⟨more, events, k, hhands, htrail, hheard, hreceiver, hhalt⟩ :=
    Scanner.run_halts Collector.receiver r.source r.collector h.coherent h.maxChunk_pos
  obtain rfl := hheard.eq_deliverAll fun _ => rfl
  generalize Scanner.run Collector.receiver r.scanner r.source r.collector = p at *
  obtain ⟨outcome, t, s, k⟩ := p
  obtain ⟨houtcome, rfl⟩ := Prod.mk.inj hs
  obtain rfl : k = _ := hreceiver
  obtain rfl : outcome = _ := houtcome
  have hidle : (Collector.receiver.deliverAll events r.collector).hasPending = false := hpending
  have hnone : (Collector.receiver.deliverAll events r.collector).pending = [] := by
    simpa [Collector.hasPending] using hidle
  -- The scan was not paused, as nothing waits, so it used up what was held.
  cases hhalt with
  | paused hno =>
    change (!(Collector.receiver.deliverAll events r.collector).hasPending) = false at hno
    simp [hidle] at hno
  | usedUp _ _ hlacking =>
    obtain ⟨rest', rfl, hfails⟩ := h.fails.serves hserves hhands
    have hlast := h.trail.trans htrail
    have hinput : input = bytes ++ more ++ rest' := by rw [h.input_eq, List.append_assoc]
    refine ⟨_, rest', _, hinput, hlast, hfails, h.collected_append events, hpending, ?_⟩
    rintro rfl
    rw [List.append_nil] at hinput
    rw [← hinput] at hlast
    refine h.brink_of_rest (h.fails.ne_nil_of_held hheld) hlast
      (hlacking.calm (hlast.coherent (Scanner.coherent_fresh _ _)) hlast.frame.closed_eq)
      (.inl hlacking) ?_
    rw [h.made_append hnone]
    exact Nat.le_succ _

/-- One that fails ends the reading. -/
theorem ends_of_scan (h : Approaches c input e taken bytes rest log r) (hrest : rest ≠ [])
    {cause : ScanError} (hs : r.scan = (.error cause, r')) :
    Ends c input e taken (.error cause) := by
  have hserved := served_scan r
  have hvalid := Scanner.parse_ne_invalidState Collector.receiver (h.coherent.sound h.closed_eq)
    r.source r.collector
  change ∀ detail offset, r.scan.1 ≠ _ at hvalid
  rw [hs] at hserved hvalid
  rw [scan_eq_run h.closed_eq] at hs
  obtain ⟨houtcome, rfl⟩ := Prod.mk.inj hs
  -- Either the source failed, and then all bytes in front of the failure were taken, or something
  -- cannot be read, which the bytes taken tell alone.
  by_cases hio : ∃ failure, cause = .io failure
  · obtain ⟨failure, rfl⟩ := hio
    obtain ⟨s₁, hserves, hfails⟩ := hserved.fails failure rfl
    obtain ⟨more, events, k, t, hhands, htrail, hlacking, hheard, hyes⟩ :=
      Scanner.run_starves h.coherent houtcome
    obtain rfl := hheard.eq_deliverAll fun _ => rfl
    obtain ⟨rfl, rfl⟩ := h.fails.fails hserves hfails hhands
    have hlast := h.trail.trans htrail
    rw [← h.input_eq] at hlast
    have hnone : (Collector.receiver.deliverAll events r.collector).pending = [] := by
      simpa [Collector.hasPending, Collector.receiver] using hyes
    have hmade := h.made_append hnone
    refine .inl ⟨rfl, log ++ events, h.brink_of_rest hrest hlast
      (hlacking.calm (hlast.coherent (Scanner.coherent_fresh _ _)) hlast.frame.closed_eq)
      (.inl hlacking) ?_, hmade⟩
    rw [hmade]
    exact Nat.le_succ _
  · have hother (failure : IoError) : cause ≠ .io failure := fun heq => hio ⟨failure, heq⟩
    have hserves := hserved.serves (fun failure heq => hother failure (Except.error.inj heq)) hvalid
    obtain ⟨more, events, k, hhands, htrail, hheard, -, hhalt⟩ :=
      Scanner.run_halts Collector.receiver r.source r.collector h.coherent h.maxChunk_pos
    obtain rfl := hheard.eq_deliverAll fun _ => rfl
    rw [houtcome] at hhalt
    cases hhalt with
    | balked failure => exact absurd rfl (hother failure)
    | refused hyes _ hends =>
      obtain ⟨rest', rfl, -⟩ := h.fails.serves hserves hhands
      have hnone : (Collector.receiver.deliverAll events r.collector).pending = [] := by
        simpa [Collector.hasPending, Collector.receiver] using hyes
      refine .inr ⟨by simp, ?_⟩
      have hreading := reading_of_trail (h.trail.trans htrail) rest'
      rw [hends rest', List.append_assoc, ← h.input_eq] at hreading
      rw [hreading, ← h.made_append hnone]
      rfl

/-- Asked for an element while its source holds some byte, a reader hands one out, takes some bytes or
ends. -/
theorem next? (h : Approaches c input e taken bytes rest log r) (hheld : r.source.buffer ≠ []) :
    match r.next? with
    | (.ok (some element), r') =>
      ∃ bytes rest log, Approaches c input e (taken ++ [element]) bytes rest log r'
    | (.ok none, r') =>
      r.bytesRead < r'.bytesRead ∧ ∃ bytes rest log, Approaches c input e taken bytes rest log r'
    | (.error cause, _) => Ends c input e taken (.error cause) := by
  have hrest := h.fails.ne_nil_of_held hheld
  rw [Reader.next?, if_neg (by simp [h.idle])]
  generalize hs : r.scan = scanned
  obtain ⟨outcome, r'⟩ := scanned
  cases outcome with
  | error cause => exact h.ends_of_scan hrest hs
  | ok _ =>
    cases hpending : r'.collector.hasPending with
    | true =>
      obtain ⟨element, hpop, happroaches⟩ := h.of_shown hrest hs hpending
      dsimp only
      rw [hpop]
      exact happroaches
    | false =>
      dsimp only
      rw [pop_of_not_pending hpending]
      exact h.of_dry hheld hs hpending

/-- A round shows an element, takes some bytes or ends. -/
theorem round_spec (h : Approaches c input e taken bytes rest log r) :
    match r.round with
    | .stop outcome _ => Ends c input e taken outcome
    | .element element r' =>
      ∃ bytes rest log, Approaches c input e (taken ++ [element]) bytes rest log r'
    | .again r' => ∃ bytes rest log, Approaches c input e taken bytes rest log r' := by
  have hmay {r₁ : Reader StreamSource} (hm : r.mayHaveNext = (.ok true, r₁)) :
      Approaches c input e taken bytes rest log r₁ ∧ r₁.source.buffer ≠ [] := by
    have hspec := h.mayHaveNext
    rw [hm] at hspec
    exact hspec.2
  have hnext {before : Nat × Nat} {r₁ r₂ : Reader StreamSource} (hm : r.mayHaveNext = (.ok true, r₁))
      (hb : r₁.progress = (.ok before, r₂)) :
      match r₂.next? with
      | (.ok (some element), r₃) =>
        ∃ bytes rest log, Approaches c input e (taken ++ [element]) bytes rest log r₃
      | (.ok none, r₃) =>
        before.1 < r₃.bytesRead ∧ ∃ bytes rest log, Approaches c input e taken bytes rest log r₃
      | (.error cause, _) => Ends c input e taken (.error cause) := by
    obtain ⟨h₁, hheld⟩ := hmay hm
    obtain ⟨hbefore, rfl⟩ := Prod.mk.inj ((progress_of_held hheld).symm.trans hb)
    obtain rfl := Except.ok.inj hbefore
    exact h₁.next? hheld
  -- A call for an element without an answer took bytes, so the progress is another one.
  have hmoved {before after : Nat × Nat} {r₁ r₂ r₃ r₄ : Reader StreamSource}
      (hm : r.mayHaveNext = (.ok true, r₁)) (hb : r₁.progress = (.ok before, r₂))
      (hn : r₂.next? = (.ok none, r₃)) (ha : r₃.progress = (.ok after, r₄)) :
      after ≠ before ∧ ∃ bytes rest log, Approaches c input e taken bytes rest log r₄ := by
    have hspec := hnext hm hb
    rw [hn] at hspec
    obtain ⟨hlt, bytes, rest, log, h₃⟩ := hspec
    have hspec := h₃.progress
    rw [ha] at hspec
    refine ⟨?_, bytes, rest, log, hspec.2⟩
    rintro rfl
    exact Nat.lt_irrefl _ (hspec.1 ▸ hlt)
  fun_cases Reader.round r with
  | case1 cause r₁ hm =>
    have hspec := h.mayHaveNext
    rw [hm] at hspec
    obtain ⟨rfl, rfl⟩ := hspec
    exact h.ends
  | case2 r₁ hm =>
    have hspec := h.mayHaveNext
    rw [hm] at hspec
    simp at hspec
  | case3 r₁ hm cause r₂ hb => simp [progress_of_held (hmay hm).2] at hb
  | case4 r₁ hm before r₂ hb cause r₃ hn =>
    have hspec := hnext hm hb
    rwa [hn] at hspec
  | case5 r₁ hm before r₂ hb element r₃ hn =>
    have hspec := hnext hm hb
    rwa [hn] at hspec
  | case6 r₁ hm before r₂ hb r₃ hn cause r₄ ha =>
    have hspec := hnext hm hb
    rw [hn] at hspec
    obtain ⟨-, bytes, rest, log, h₃⟩ := hspec
    have hspec := h₃.progress
    rw [ha] at hspec
    obtain ⟨rfl, rfl⟩ := hspec
    exact h₃.ends
  | case7 r₁ hm before r₂ hb r₃ hn after r₄ ha => exact (hmoved hm hb hn ha).2
  | case8 r₁ hm before r₂ hb r₃ hn after r₄ ha hsame =>
    exact absurd (Decidable.not_not.mp hsame) (hmoved hm hb hn ha).1
  | case9 r₁ hm before r₂ hb r₃ hn after r₄ ha hsame =>
    exact absurd (Decidable.not_not.mp hsame) (hmoved hm hb hn ha).1
  | case10 r₁ hm before r₂ hb r₃ hn after r₄ ha hsame =>
    exact absurd (Decidable.not_not.mp hsame) (hmoved hm hb hn ha).1

end Approaches

/-- A reader on its way to a failure offers what is left in front of it, and ends there at the
latest. -/
theorem Approaches.ends_offered {bytes rest : Bytes} {log : List Event} {r : Reader StreamSource}
    (h : Approaches c input e taken bytes rest log r) :
    Ends c input e (taken ++ (offered r).1) (offered r).2 := by
  -- Each round keeps the reader on its way, so the induction is over the rounds.
  induction r using offered.induct generalizing taken bytes rest log with
  | case1 r outcome r' hround =>
    have hspec := h.round_spec
    rw [hround] at hspec
    rwa [offered_of_stop hround, List.append_nil]
  | case2 r element r' hround ih =>
    have hspec := h.round_spec
    rw [hround] at hspec
    obtain ⟨_, _, _, h'⟩ := hspec
    have hrest := ih h'
    rw [List.append_assoc] at hrest
    rwa [offered_of_element hround]
  | case3 r r' hround ih =>
    have hspec := h.round_spec
    rw [hround] at hspec
    obtain ⟨_, _, _, h'⟩ := hspec
    rw [offered_of_again hround]
    exact ih h'

/-! ## What is offered -/

/-- A reader at the start of a stream that fails. -/
theorem approaches_ofStream (c : ReaderConfig) {stream : Stream} (chunk : Nat)
    (h : (Stream.failuresUntilEmpty stream.answers).head? = some e) :
    Approaches c (Stream.untilFailure stream.answers) e [] [] (Stream.untilFailure stream.answers) []
      (ofSource c (StreamSource.ofStream stream chunk)) where
  input_eq := rfl
  trail := .refl _
  fails := StreamSource.failsAfter_ofStream stream chunk h
  collected := rfl
  idle := rfl
  brink hnil := by
    rw [hnil]
    exact ⟨⟨_, .refl _, Scanner.calm_of_header rfl rfl, .inl (settled_ofSource c).dry.lacking⟩,
      .inl rfl⟩

/-- Of a stream that fails, two readers, one of which leaves nothing out, offer what there is to read
in front of the failure, if something there cannot be read. If all can be read, both end with the
failure and choose among the same elements, but that the other one may have got further, to elements
without data. -/
theorem offered_of_failure (hall : c.filter = none) (paths : Bool) (filter : Option (List Nat))
    {stream : Stream} (chunk : Nat)
    (h : (Stream.failuresUntilEmpty stream.answers).head? = some e) :
    let c' := { c with capturePaths := paths, filter := filter }
    let all := offered (ofSource c (StreamSource.ofStream stream chunk))
    let part := offered (ofSource c' (StreamSource.ofStream stream chunk))
    (all = reading c (Stream.untilFailure stream.answers) ∧
        part = reading c' (Stream.untilFailure stream.answers)) ∨
      all.2 = .error (.io e) ∧ part.2 = .error (.io e) ∧
        ∃ elements more, all.1 = (Collector.ofConfig c).choice elements ∧
          part.1 = (Collector.ofConfig c').choice (elements ++ more) ∧
          ∀ l, .leaf l ∈ more → l.content = [] := by
  intro c' all part
  have hends : Ends c (Stream.untilFailure stream.answers) e all.1 all.2 :=
    (approaches_ofStream c chunk h).ends_offered
  have hends' : Ends c' (Stream.untilFailure stream.answers) e part.1 part.2 :=
    (approaches_ofStream c' chunk h).ends_offered
  -- Whether something cannot be read does not depend on the settings.
  have halike : (reading c' (Stream.untilFailure stream.answers)).2 =
      (reading c (Stream.untilFailure stream.answers)).2 := rfl
  rcases hends with ⟨hio, log, hbrink, hmade⟩ | ⟨hbad, hreading⟩ <;>
    rcases hends' with ⟨hio', log', hbrink', hmade'⟩ | ⟨hbad', hreading'⟩
  · refine .inr ⟨hio, hio', ?_⟩
    rw [← hmade, ← hmade']
    exact hbrink.compare hall paths filter hbrink'
  · rw [hbrink.reading_ok, hreading'] at halike
    exact absurd halike hbad'
  · rw [hbrink'.reading_ok, hreading] at halike
    exact absurd halike.symm hbad
  · exact .inl ⟨hreading.symm, hreading'.symm⟩

end Reader

end Ebml
