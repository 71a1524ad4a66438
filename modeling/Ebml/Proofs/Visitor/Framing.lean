import Mathlib
import Ebml.FrameTable
import Ebml.Proofs.Bytes.Signed
import Ebml.Proofs.Reader.Failing

/-!
# Frames and their clusters

The visitor of frames keeps one timecode and looks at one element at a time. What it reports is said
here by looking back from each element at all those in front of it (`FrameVisit.events`), and what it
does with an element is said once (`FrameVisit.visit_legible`). Elements that a table of frames leaves
out do not concern it, so it hears the same with and without them (`FrameVisit.reports`).
-/

namespace Ebml

/-! ## Looking back -/

namespace Element

/-- Whether a cluster starts or ends here. -/
def isBorder : Element → Bool
  | start element .. => element.decl.id = Matroska.clusterId
  | finish element _ => element.decl.id = Matroska.clusterId
  | leaf _ => false

/-- What a timecode element says, which is nothing if its value is no unsigned integer. -/
def timecode? : Element → Option (Option Nat)
  | leaf l =>
    if l.element.decl.id = Matroska.timecodeId then some (l.value.toOption.bind Value.toNat?)
    else none
  | _ => none

end Element

/-- What the visitor of frames reads in a leaf can be read: the value of a timecode element and the
frame of a simple block. -/
structure Leaf.Legible (l : Leaf) : Prop where
  value_ok : l.element.decl.id = Matroska.timecodeId → ∃ value, l.value = .ok value
  frame_ok : ∃ frame, l.frame? = .ok frame

/-- The value of a leaf or its frame cannot be read, for this reason. -/
def Leaf.FailsWith (l : Leaf) (failure : ValueError) : Prop :=
  l.value = .error failure ∨ ∃ cause, l.frame? = .error cause ∧ failure = .frame cause

namespace FrameVisit

/-- The timecode of the cluster behind `earlier` elements: what the last timecode element says since
a cluster last started or ended. -/
def timecodeBehind (earlier : List Element) : Option Nat :=
  ((earlier.rtakeWhile fun e => !e.isBorder).filterMap Element.timecode?).getLast?.join

/-- How the frame of an element is reported, if it has one of the track. -/
def event? (track clusterTimecode : Option Nat) : Element → Option FrameEvent
  | .leaf l =>
    match l.frame? with
    | .ok (some frame) =>
      if track.all (· = frame.track) then some ⟨frame, clusterTimecode, l.element⟩ else none
    | _ => none
  | _ => none

/-- The frames of the track in order, each with the timecode behind the elements in front of it. -/
def events (track : Option Nat) (elements : List Element) : List FrameEvent :=
  elements.zipIdx.filterMap fun (e, n) => event? track (timecodeBehind (elements.take n)) e

/-- Call a function for each of some frames, up to the first on which it fails. -/
def callEach {α ε : Type} (onFrame : FrameEvent → α → Except ε Unit × α) :
    List FrameEvent → α → Except ε Unit × α
  | [], inner => (.ok (), inner)
  | event :: rest, inner =>
    match onFrame event inner with
    | (.error e, inner') => (.error e, inner')
    | (.ok (), inner') => callEach onFrame rest inner'

/-- A function that puts each frame in front of the others never fails. -/
theorem callEach_cons {ε : Type} (events found : List FrameEvent) :
    callEach (fun event found => ((.ok () : Except ε Unit), event :: found)) events found =
      (.ok (), events.reverse ++ found) := by
  induction events generalizing found with
  | nil => rfl
  | cons event rest ih =>
    rw [List.reverse_cons, List.append_assoc]
    exact ih (event :: found)

/-- The timecode of the cluster behind an element, if there was `clusterTimecode` in front of it. -/
def timecodeAfter (e : Element) (clusterTimecode : Option Nat) : Option Nat :=
  if e.isBorder then none else e.timecode?.getD clusterTimecode

theorem timecodeBehind_append (earlier : List Element) (e : Element) :
    timecodeBehind (earlier ++ [e]) = timecodeAfter e (timecodeBehind earlier) := by
  unfold timecodeBehind timecodeAfter
  rw [List.rtakeWhile_concat]
  cases hborder : e.isBorder with
  | true => rfl
  | false =>
    cases htimecode : e.timecode? <;> simp [List.filterMap_append, htimecode]

/-- The frames of `elements` behind `earlier` ones. -/
def eventsBehind (track : Option Nat) (earlier elements : List Element) : List FrameEvent :=
  (elements.zipIdx earlier.length).filterMap fun (e, n) =>
    event? track (timecodeBehind ((earlier ++ elements).take n)) e

theorem eventsBehind_cons (track : Option Nat) (earlier : List Element) (e : Element)
    (rest : List Element) :
    eventsBehind track earlier (e :: rest) =
      (event? track (timecodeBehind earlier) e).toList ++
        eventsBehind track (earlier ++ [e]) rest := by
  unfold eventsBehind
  rw [List.zipIdx_cons, List.filterMap_cons, List.length_append, List.append_assoc]
  simp only [List.take_left, List.length_singleton, List.singleton_append]
  cases event? track (timecodeBehind earlier) e <;> rfl

/-! ## Visits -/

section

variable {α ε : Type} (onFrame : FrameEvent → α → Except ε Unit × α) (ofError : ValueError → ε)

/-- What the visitor does with an element that it can read. -/
theorem visit_legible {e : Element} (h : ∀ l, e = .leaf l → l.Legible) (s : FrameVisit α) :
    (visitor onFrame ofError).visit e s =
      match event? s.track s.clusterTimecode e with
      | none => (.ok (), { s with clusterTimecode := timecodeAfter e s.clusterTimecode })
      | some event =>
        ((onFrame event s.inner).1,
          { s with
            clusterTimecode := timecodeAfter e s.clusterTimecode
            frames := s.frames + 1
            inner := (onFrame event s.inner).2 }) := by
  cases e with
  | start element path size header =>
    by_cases hid : element.decl.id = Matroska.clusterId <;>
      simp [visitor, atBorder, event?, timecodeAfter, Element.isBorder, Element.timecode?, hid]
  | finish element path =>
    by_cases hid : element.decl.id = Matroska.clusterId <;>
      simp [visitor, atBorder, event?, timecodeAfter, Element.isBorder, Element.timecode?, hid]
  | leaf l =>
    obtain ⟨hvalue, frame?, hframe⟩ := h l rfl
    by_cases hid : l.element.decl.id = Matroska.timecodeId
    · obtain ⟨value, hvalue⟩ := hvalue hid
      have hnone : l.frame? = .ok none := by
        rw [Leaf.frame?, hid, if_neg (by decide)]
      simp [visitor, visitLeaf, event?, timecodeAfter, Element.isBorder, Element.timecode?, hid,
        hvalue, hnone, Except.toOption]
    · -- Any other leaf leaves the timecode, and counts if it has a frame of the track.
      have hafter : timecodeAfter (.leaf l) s.clusterTimecode = s.clusterTimecode := by
        simp [timecodeAfter, Element.isBorder, Element.timecode?, hid]
      have hwanted (frame : Frame) :
          s.track.any (fun t => !decide (t = frame.track)) = !s.track.all (· = frame.track) := by
        cases s.track <;> simp
      rw [hafter]
      cases frame? with
      | none => simp [visitor, visitLeaf, event?, hid, hframe]
      | some frame =>
        cases hown : s.track.all (· = frame.track) <;>
          simp [visitor, visitLeaf, event?, hid, hframe, hwanted, hown]

/-- An element that the visitor cannot read is a leaf. Its error is passed on and nothing changes. -/
theorem visit_illegible {e : Element} (h : ¬ ∀ l, e = .leaf l → l.Legible) (s : FrameVisit α) :
    ∃ l failure, e = .leaf l ∧ l.FailsWith failure ∧
      (visitor onFrame ofError).visit e s = (.error (ofError failure), s) := by
  push Not at h
  obtain ⟨l, rfl, hl⟩ := h
  by_cases hid : l.element.decl.id = Matroska.timecodeId
  · cases hvalue : l.value with
    | error failure =>
      exact ⟨l, failure, rfl, .inl hvalue, by simp [visitor, visitLeaf, hid, hvalue]⟩
    | ok value =>
      have hnone : l.frame? = .ok none := by
        rw [Leaf.frame?, hid, if_neg (by decide)]
      exact absurd ⟨fun _ => ⟨value, hvalue⟩, none, hnone⟩ hl
  · cases hframe : l.frame? with
    | error failure =>
      exact ⟨l, .frame failure, rfl, .inr ⟨failure, hframe, rfl⟩,
        by simp [visitor, visitLeaf, hid, hframe]⟩
    | ok frame => exact absurd ⟨fun htimecode => absurd htimecode hid, frame, hframe⟩ hl

/-- The visitor calls its function for each of the frames, and counts them. -/
theorem showAll_legible {elements : List Element} (h : ∀ l, .leaf l ∈ elements → l.Legible)
    (earlier : List Element) (s : FrameVisit α)
    (hs : s.clusterTimecode = timecodeBehind earlier) :
    let shown := (visitor onFrame ofError).showAll elements (.ok ()) s
    let called := callEach onFrame (eventsBehind s.track earlier elements) s.inner
    shown.1 = called.1.mapError .visitor ∧ shown.2.inner = called.2 ∧
      (called.1 = .ok () →
        shown.2.frames = s.frames + (eventsBehind s.track earlier elements).length) := by
  -- The timecode that the visitor keeps is the one behind the elements it saw.
  induction elements generalizing earlier s with
  | nil => exact ⟨rfl, rfl, fun _ => rfl⟩
  | cons e rest ih =>
    have hvisit := visit_legible onFrame ofError (e := e) (fun l hl => h l (by simp [hl])) s
    have hrest := ih fun l hl => h l (List.mem_cons_of_mem e hl)
    rw [eventsBehind_cons, Visitor.showAll, if_neg (by simp [visitor]), hvisit, hs]
    have hbehind := (timecodeBehind_append earlier e).symm
    cases event? s.track (timecodeBehind earlier) e with
    | none =>
      exact hrest (earlier ++ [e])
        { s with clusterTimecode := timecodeAfter e (timecodeBehind earlier) } hbehind
    | some event =>
      dsimp only [Option.toList, List.singleton_append, callEach]
      rcases onFrame event s.inner with ⟨failure | _, inner⟩
      · exact ⟨rfl, rfl, fun h => by simp at h⟩
      · obtain ⟨houtcome, hinner, hframes⟩ := hrest (earlier ++ [e])
          { s with
            clusterTimecode := timecodeAfter e (timecodeBehind earlier)
            frames := s.frames + 1
            inner := inner } hbehind
        refine ⟨houtcome, hinner, fun hcalled => (hframes hcalled).trans ?_⟩
        rw [List.length_cons, Nat.add_assoc, Nat.add_comm 1]

/-! ## Elements without data -/

/-- Without data there is no frame. -/
theorem event?_of_blank {e : Element} (h : ∀ l, e = .leaf l → l.content = [])
    (track clusterTimecode : Option Nat) : event? track clusterTimecode e = none := by
  cases e with
  | start => rfl
  | finish => rfl
  | leaf l =>
    have hempty : Frame.decode [] = .error (.truncated 0) := rfl
    have hframe (frame : Frame) : l.frame? ≠ .ok (some frame) := by
      rw [Leaf.frame?, h l rfl, hempty]
      split <;> simp [Except.map]
    dsimp only [event?]
    split
    · rename_i heq
      exact absurd heq (hframe _)
    · rfl

/-- Elements without data bring no call. If one of them cannot be read the visitor fails. -/
theorem showAll_blank {elements : List Element} (h : ∀ l, .leaf l ∈ elements → l.content = [])
    (ending : Except ScanError Unit) (s : FrameVisit α) :
    let shown := (visitor onFrame ofError).showAll elements ending s
    shown.2.inner = s.inner ∧ shown.2.frames = s.frames ∧
      (shown.1 = ending.mapError .scan ∨ ∃ l failure, .leaf l ∈ elements ∧ l.FailsWith failure ∧
        shown.1 = .error (.visitor (ofError failure))) := by
  induction elements generalizing s with
  | nil => exact ⟨rfl, rfl, .inl rfl⟩
  | cons e rest ih =>
    rw [Visitor.showAll, if_neg (by simp [visitor])]
    by_cases hlegible : ∀ l, e = .leaf l → l.Legible
    · rw [visit_legible onFrame ofError hlegible,
        event?_of_blank fun l hl => h l (by simp [hl])]
      obtain ⟨hinner, hframes, hend⟩ := ih (fun l hl => h l (List.mem_cons_of_mem _ hl))
        { s with clusterTimecode := timecodeAfter e s.clusterTimecode }
      refine ⟨hinner, hframes, hend.imp_right ?_⟩
      rintro ⟨l, failure, hl, hfails, hshown⟩
      exact ⟨l, failure, List.mem_cons_of_mem _ hl, hfails, hshown⟩
    · obtain ⟨l, failure, rfl, hfails, hvisit⟩ := visit_illegible onFrame ofError hlegible s
      rw [hvisit]
      exact ⟨rfl, rfl, .inr ⟨l, failure, List.mem_cons_self, hfails, rfl⟩⟩

/-- More elements are shown to the visitor if it did not fail before. -/
theorem showAll_append (elements more : List Element) (ending : Except ScanError Unit)
    (s : FrameVisit α) :
    (visitor onFrame ofError).showAll (elements ++ more) ending s =
      match (visitor onFrame ofError).showAll elements (.ok ()) s with
      | (.error failure, s') => (.error failure, s')
      | (.ok (), s') => (visitor onFrame ofError).showAll more ending s' := by
  induction elements generalizing s with
  | nil => rfl
  | cons e rest ih =>
    rw [List.cons_append, Visitor.showAll, Visitor.showAll, if_neg (by simp [visitor]),
      if_neg (by simp [visitor])]
    generalize (visitor onFrame ofError).visit e s = visited
    obtain ⟨failure | _, s'⟩ := visited
    · rfl
    · exact ih s'

/-! ## What is not looked at -/

theorem visit_unwanted {e : Element}
    (h : FrameTable.wantedIds.contains e.occurrence.decl.id = false) (s : FrameVisit α) :
    (visitor onFrame ofError).visit e s = (.ok (), s) := by
  simp only [FrameTable.wantedIds, List.contains_eq_mem, decide_eq_false_iff_not, List.mem_cons,
    List.not_mem_nil, or_false, not_or] at h
  obtain ⟨hcluster, htimecode, hblock⟩ := h
  cases e with
  | start element path size header => exact congrArg (Prod.mk _) (if_neg hcluster)
  | finish element path => exact congrArg (Prod.mk _) (if_neg hcluster)
  | leaf l =>
    simp only [Element.occurrence] at htimecode hblock
    simp [visitor, visitLeaf, Leaf.frame?, htimecode, hblock]

theorem visit_present (k : Collector) (e : Element) (s : FrameVisit α) :
    (visitor onFrame ofError).visit (k.present e) s = (visitor onFrame ofError).visit e s := by
  unfold Collector.present
  split
  · rfl
  · cases e <;> rfl

/-- A collector that wants what a table of frames wants keeps nothing else from the visitor. -/
theorem showAll_choice {k : Collector}
    (h : ∀ id, FrameTable.wantedIds.contains id = true → k.wants id = true)
    (elements : List Element) (ending : Except ScanError Unit) (s : FrameVisit α) :
    (visitor onFrame ofError).showAll (k.choice elements) ending s =
      (visitor onFrame ofError).showAll elements ending s := by
  induction elements generalizing s with
  | nil => rfl
  | cons e rest ih =>
    rw [← List.singleton_append, Collector.choice_append]
    cases hwants : k.wants e.occurrence.decl.id with
    | true =>
      rw [Collector.choice_of_wanted hwants, List.singleton_append, List.singleton_append,
        Visitor.showAll, Visitor.showAll, visit_present]
      simp only [ih]
    | false =>
      have hunwanted : FrameTable.wantedIds.contains e.occurrence.decl.id = false :=
        Bool.eq_false_iff.mpr fun hcontains => by simp [h _ hcontains] at hwants
      rw [Collector.choice_of_unwanted hwants, List.nil_append, ih, List.singleton_append,
        Visitor.showAll, if_neg (by simp [visitor]), visit_unwanted onFrame ofError hunwanted]

theorem content_of_choice (k : Collector) {elements : List Element}
    (h : ∀ l, .leaf l ∈ elements → l.content = []) {l : Leaf} (hl : .leaf l ∈ k.choice elements) :
    l.content = [] := by
  obtain ⟨e, he, hpresent⟩ := List.mem_map.mp hl
  have hmem := List.mem_of_mem_filter he
  unfold Collector.present at hpresent
  split at hpresent
  · exact h l (hpresent ▸ hmem)
  · cases e with
    | leaf l' =>
      obtain rfl := Element.leaf.inj hpresent
      exact h l' hmem
    | start => simp [Element.withoutPath] at hpresent
    | finish => simp [Element.withoutPath] at hpresent

/-- Two rows of elements that two collectors chose, the second one with more that have no data, bring
the same calls and the same error, unless one of those in addition cannot be read. -/
theorem showAll_ahead (k k' : Collector)
    (hwants : ∀ id, FrameTable.wantedIds.contains id = true → k.wants id = true)
    (hwants' : ∀ id, FrameTable.wantedIds.contains id = true → k'.wants id = true)
    (elements : List Element) {more : List Element} (h : ∀ l, .leaf l ∈ more → l.content = [])
    (ending : Except ScanError Unit) (s : FrameVisit α) :
    let all := (visitor onFrame ofError).showAll (k.choice elements) ending s
    let part := (visitor onFrame ofError).showAll (k'.choice (elements ++ more)) ending s
    part.2.inner = all.2.inner ∧ part.2.frames = all.2.frames ∧
      (part.1 = all.1 ∨ ∃ l failure, .leaf l ∈ k'.choice (elements ++ more) ∧ l.content = [] ∧
        l.FailsWith failure ∧ all.1 = ending.mapError .scan ∧
        part.1 = .error (.visitor (ofError failure))) := by
  intro all part
  have hall : all = (visitor onFrame ofError).showAll (elements ++ []) ending s := by
    rw [List.append_nil]
    exact showAll_choice onFrame ofError hwants elements ending s
  have hpart : part =
      (visitor onFrame ofError).showAll (k'.choice elements ++ k'.choice more) ending s := by
    rw [← Collector.choice_append]
  rw [showAll_append] at hall hpart
  rw [showAll_choice onFrame ofError hwants'] at hpart
  generalize (visitor onFrame ofError).showAll elements (.ok ()) s = shown at hall hpart
  obtain ⟨failure | _, s'⟩ := shown
  · rw [hall, hpart]
    exact ⟨rfl, rfl, .inl rfl⟩
  · -- Both came through, and the second one goes on to elements without data.
    have hblank (l : Leaf) (hl : .leaf l ∈ k'.choice more) := content_of_choice k' h hl
    obtain ⟨hinner, hframes, hend⟩ := showAll_blank onFrame ofError hblank ending s'
    have hall : all = (ending.mapError .scan, s') := hall
    rw [hall, hpart]
    refine ⟨hinner, hframes, hend.imp_right ?_⟩
    rintro ⟨l, failure, hl, hfails, hshown⟩
    refine ⟨l, failure, ?_, hblank l hl, hfails, rfl, hshown⟩
    rw [Collector.choice_append]
    exact List.mem_append_right _ hl

open Reader in
/-- A document that is read for a table of frames comes to the same as one that is read as a whole. -/
theorem showAll_reading (c : ReaderConfig) (bytes : Bytes) (s : FrameVisit α) :
    let v := visitor onFrame ofError
    let narrow := reading { c with capturePaths := false, filter := some FrameTable.wantedIds } bytes
    let whole := reading { c with filter := none } bytes
    v.showAll narrow.1 narrow.2 s = v.showAll whole.1 whole.2 s := by
  obtain ⟨elements, hreading⟩ := reading_choice c bytes
  intro v narrow whole
  have hnarrow : narrow = _ := hreading false (some FrameTable.wantedIds)
  have hwhole : whole = _ := hreading c.capturePaths none
  calc v.showAll narrow.1 narrow.2 s = v.showAll elements (reading c bytes).2 s := by
        rw [hnarrow]
        refine showAll_choice onFrame ofError ?_ _ _ _
        exact fun _ hwanted => hwanted
    _ = v.showAll whole.1 whole.2 s := by
        rw [hwhole]
        exact (showAll_choice onFrame ofError (fun _ _ => rfl) _ _ _).symm

end

/-! ## Times -/

theorem fitsSigned_iff (n : Int) :
    FitsSigned maxIntegerWidth n ↔ -2 ^ 63 ≤ n ∧ n ≤ 2 ^ 63 - 1 :=
  fitsSigned_eight

end FrameVisit

/-- The time of a frame is that of its cluster plus its own, if that can be a signed number of 8
bytes. -/
theorem FrameEvent.absoluteTimecode_eq_some_iff (event : FrameEvent) (time : Int) :
    event.absoluteTimecode = some time ↔
      ∃ cluster, event.clusterTimecode = some cluster ∧ cluster ≤ 2 ^ 63 - 1 ∧
        time = cluster + event.frame.timecode ∧ -2 ^ 63 ≤ time ∧ time ≤ 2 ^ 63 - 1 := by
  unfold absoluteTimecode
  cases event.clusterTimecode with
  | none => simp
  | some cluster =>
    simp only [FrameVisit.fitsSigned_iff, Option.some.injEq, exists_eq_left']
    split
    · rw [Option.some.injEq]
      omega
    · simp only [reduceCtorEq, false_iff]
      omega

/-- A frame has no time if its cluster has none, or one that is too large, alone or with the frame's
own added to it. -/
theorem FrameEvent.absoluteTimecode_eq_none_iff (event : FrameEvent) :
    event.absoluteTimecode = none ↔
      event.clusterTimecode = none ∨
        ∃ cluster, event.clusterTimecode = some cluster ∧
          (2 ^ 63 - 1 < cluster ∨ cluster + event.frame.timecode < -2 ^ 63 ∨
            2 ^ 63 - 1 < cluster + event.frame.timecode) := by
  unfold absoluteTimecode
  cases event.clusterTimecode with
  | none => simp
  | some cluster =>
    simp only [FrameVisit.fitsSigned_iff, Option.some.injEq, exists_eq_left', reduceCtorEq, false_or]
    split
    · simp only [reduceCtorEq, false_iff]
      omega
    · simp only [true_iff]
      omega

namespace FrameVisit

open Reader (ofSource apply offered)

/-! ## What is reported -/

section

variable {α ε : Type} (onFrame : FrameEvent → α → Except ε Unit × α) (ofError : ValueError → ε)

/-- A stream that is read for a table of frames brings the same calls and the same error as one that
is read as a whole. If the stream fails, an element without data may be come upon in front of the
failure that only the one who reads less gets to see. -/
theorem apply_stream (c : ReaderConfig) (stream : Stream) (chunk : Nat) (s : FrameVisit α) :
    let v := visitor onFrame ofError
    let source := StreamSource.ofStream stream chunk
    let narrow := { c with capturePaths := false, filter := some FrameTable.wantedIds }
    let part := apply v (ofSource narrow source) s
    let all := apply v (ofSource { c with filter := none } source) s
    (Stream.failuresUntilEmpty stream.answers = [] →
      (part.outcome, part.visitor) = (all.outcome, all.visitor)) ∧
    part.visitor.inner = all.visitor.inner ∧ part.visitor.frames = all.visitor.frames ∧
    (part.outcome = all.outcome ∨ ∃ cause l failure,
      (Stream.failuresUntilEmpty stream.answers).head? = some cause ∧
        all.outcome = .error (.scan (.io cause)) ∧
        part.outcome = .error (.visitor (ofError failure)) ∧
        .leaf l ∈ (offered (ofSource narrow source)).1 ∧ l.content = [] ∧ l.FailsWith failure) := by
  intro v source narrow part all
  have hpart : (part.outcome, part.visitor) = v.showAll _ _ s := Reader.apply_eq_showAll v _ s
  have hall : (all.outcome, all.visitor) = v.showAll _ _ s := Reader.apply_eq_showAll v _ s
  have halike (hsame : (part.outcome, part.visitor) = (all.outcome, all.visitor)) :
      part.visitor.inner = all.visitor.inner ∧ part.visitor.frames = all.visitor.frames ∧
        part.outcome = all.outcome := by
    obtain ⟨houtcome, hvisitor⟩ := Prod.mk.inj hsame
    exact ⟨congrArg _ hvisitor, congrArg _ hvisitor, houtcome⟩
  -- Both visits are walks over what their readers have to offer. Without a failure these are what
  -- the same bytes are read as.
  cases hfailures : Stream.failuresUntilEmpty stream.answers with
  | nil =>
    rw [Reader.offered_ofStream _ _ _ hfailures] at hpart hall
    have hsame := hpart.trans ((showAll_reading onFrame ofError c _ s).trans hall.symm)
    obtain ⟨hinner, hframes, houtcome⟩ := halike hsame
    exact ⟨fun _ => hsame, hinner, hframes, .inl houtcome⟩
  | cons cause later =>
    refine ⟨by simp, ?_⟩
    have hfirst : (Stream.failuresUntilEmpty stream.answers).head? = some cause := by
      rw [hfailures, List.head?_cons]
    -- Both came upon something that cannot be read, or the whole to the failure.
    rcases Reader.offered_of_failure (c := { c with filter := none }) rfl false
        (some FrameTable.wantedIds) chunk hfirst with
      ⟨hread, hread'⟩ | ⟨hio, hio', elements, more, hall', hpart', hblank⟩
    · rw [hread'] at hpart
      rw [hread] at hall
      obtain ⟨hinner, hframes, houtcome⟩ :=
        halike (hpart.trans ((showAll_reading onFrame ofError c _ s).trans hall.symm))
      exact ⟨hinner, hframes, .inl houtcome⟩
    · rw [hio', hpart'] at hpart
      rw [hio, hall'] at hall
      have hshown := showAll_ahead onFrame ofError (.ofConfig { c with filter := none })
        (.ofConfig narrow) (fun _ _ => rfl) (fun _ hwanted => hwanted) elements hblank
        (.error (.io cause)) s
      rw [← hall, ← hpart, ← hpart'] at hshown
      obtain ⟨hinner, hframes, hend⟩ := hshown
      refine ⟨hinner, hframes, hend.imp_right ?_⟩
      rintro ⟨l, failure, hl, hempty, hfails, hmet, hspoilt⟩
      exact ⟨cause, l, failure, rfl, hmet, hspoilt, hl, hempty, hfails⟩

end

/-- The visitor calls its function once for each frame of the track, in order and with the timecode of
the cluster that the frame stands in, and counts the calls, if all that it reads can be read and no
call fails. The time of a frame is the sum of its cluster's timecode and its own unless that is no
signed number of 8 bytes. Of a document that is read without paths and for these elements only, the
visitor and its function make the same as of the whole, errors included, and so they do of a stream
that does not fail. Of one that fails they make the same calls. The error is the same as well, unless
the whole ends with the failure. Then the part may end with the error of an element without data in
front of that failure, which it was shown and the whole not. -/
theorem reports {α ε : Type} (onFrame : FrameEvent → α → Except ε Unit × α)
    (ofError : ValueError → ε) (track : Option Nat) (inner : α) :
    let v := visitor onFrame ofError
    let start : FrameVisit α := { track := track, inner := inner }
    (∀ elements, (∀ l, .leaf l ∈ elements → l.Legible) →
      (callEach onFrame (events track elements) inner).1 = .ok () →
        let shown := v.showAll elements (.ok ()) start
        shown.1 = .ok () ∧ shown.2.inner = (callEach onFrame (events track elements) inner).2 ∧
          shown.2.frames = (events track elements).length) ∧
    (∀ event : FrameEvent,
      (∀ time, event.absoluteTimecode = some time ↔
        ∃ cluster, event.clusterTimecode = some cluster ∧ cluster ≤ 2 ^ 63 - 1 ∧
          time = cluster + event.frame.timecode ∧ -2 ^ 63 ≤ time ∧ time ≤ 2 ^ 63 - 1) ∧
      (event.absoluteTimecode = none ↔
        event.clusterTimecode = none ∨
          ∃ cluster, event.clusterTimecode = some cluster ∧
            (2 ^ 63 - 1 < cluster ∨ cluster + event.frame.timecode < -2 ^ 63 ∨
              2 ^ 63 - 1 < cluster + event.frame.timecode))) ∧
    ∀ c : ReaderConfig,
      let narrow := { c with capturePaths := false, filter := some FrameTable.wantedIds }
      let whole := { c with filter := none }
      (∀ bytes,
        let part := apply v (ofSource narrow (PushSource.ofBytes bytes)) start
        let all := apply v (ofSource whole (PushSource.ofBytes bytes)) start
        (part.outcome, part.visitor) = (all.outcome, all.visitor)) ∧
      ∀ (stream : Stream) (chunk : Nat),
        let source := StreamSource.ofStream stream chunk
        let part := apply v (ofSource narrow source) start
        let all := apply v (ofSource whole source) start
        (Stream.failuresUntilEmpty stream.answers = [] →
          (part.outcome, part.visitor) = (all.outcome, all.visitor)) ∧
        part.visitor.inner = all.visitor.inner ∧ part.visitor.frames = all.visitor.frames ∧
        (part.outcome = all.outcome ∨ ∃ cause l failure,
          (Stream.failuresUntilEmpty stream.answers).head? = some cause ∧
            all.outcome = .error (.scan (.io cause)) ∧
            part.outcome = .error (.visitor (ofError failure)) ∧
            .leaf l ∈ (offered (ofSource narrow source)).1 ∧ l.content = [] ∧
            l.FailsWith failure) := by
  intro v start
  refine ⟨fun elements hlegible hcalled => ?_, fun event => ?_, fun c => ⟨fun bytes => ?_,
    fun stream chunk => apply_stream onFrame ofError c stream chunk start⟩⟩
  · obtain ⟨houtcome, hinner, hframes⟩ :=
      showAll_legible onFrame ofError hlegible [] start rfl
    have hevents : eventsBehind track [] elements = events track elements := rfl
    simp only [start, hevents, hcalled, Nat.zero_add] at houtcome hinner hframes
    exact ⟨houtcome, hinner, hframes trivial⟩
  · exact ⟨event.absoluteTimecode_eq_some_iff, event.absoluteTimecode_eq_none_iff⟩
  · dsimp only
    rw [Reader.apply_eq_showAll, Reader.apply_eq_showAll, Reader.offered_ofBytes,
      Reader.offered_ofBytes]
    exact showAll_reading onFrame ofError c bytes start

/-- A cluster with the timecode 5 that holds a frame which comes 2 later. -/
def lateFrame : Bytes :=
  [0x1F, 0x43, 0xB6, 0x75, 0x8A, 0xE7, 0x81, 5, 0xA3, 0x85, 0x81, 0, 2, 0x80, 0xAB]

/-- Note a frame down. -/
def noteDown (event : FrameEvent) (found : List FrameEvent) :
    Except ValueError Unit × List FrameEvent :=
  (.ok (), found ++ [event])

/-- The frame is reported once, at the time 7, also if only what a table needs is read, and the same is
made of a stream of these bytes. -/
theorem reports_late_frame :
    let start : FrameVisit (List FrameEvent) := { track := some 1, inner := [] }
    let narrow : ReaderConfig := { capturePaths := false, filter := some FrameTable.wantedIds }
    let shown := (visitor noteDown id).showAll (Reader.reading {} lateFrame).1 (.ok ()) start
    shown.1 = .ok () ∧ shown.2.frames = 1 ∧
      shown.2.inner.map (fun event => (event.clusterTimecode, event.absoluteTimecode)) =
        [(some 5, some 7)] ∧
      (apply (visitor noteDown id) (ofSource narrow (PushSource.ofBytes lateFrame)) start).visitor =
        shown.2 ∧
      Stream.failuresUntilEmpty (Stream.ofBytes lateFrame).answers = [] ∧
      (apply (visitor noteDown id) (ofSource narrow (StreamSource.ofStream (.ofBytes lateFrame) 4))
        start).visitor = shown.2 := by
  have hchecked : ((Reader.reading {} lateFrame).1.filterMap Element.leaf?).all
      (fun l => l.value.isOk && l.frame?.isOk) = true := by cbv
  have hlegible (l : Leaf) (hl : .leaf l ∈ (Reader.reading {} lateFrame).1) : l.Legible := by
    have hok := List.all_eq_true.mp hchecked l (List.mem_filterMap.mpr ⟨.leaf l, hl, rfl⟩)
    rcases hvalue : l.value with _ | value <;> rcases hframe : l.frame? with _ | frame <;>
      simp [hvalue, hframe, Except.isOk, Except.toBool] at hok
    exact ⟨fun _ => ⟨value, hvalue⟩, frame, hframe⟩
  have hlength : (events (some 1) (Reader.reading {} lateFrame).1).length = 1 := by cbv
  have hcalled : (callEach noteDown (events (some 1) (Reader.reading {} lateFrame).1) []).1 =
      .ok () := by cbv
  have htimes : (callEach noteDown (events (some 1) (Reader.reading {} lateFrame).1) []).2.map
      (fun event => (event.clusterTimecode, event.absoluteTimecode)) = [(some 5, some 7)] := by cbv
  obtain ⟨hreports, -, hnarrow⟩ := reports noteDown id (some 1) []
  obtain ⟨houtcome, hinner, hframes⟩ := hreports _ hlegible hcalled
  have hends : (Reader.reading {} lateFrame).2 = .ok () := by cbv
  have hwhole := Reader.apply_eq_showAll (visitor noteDown id)
    (ofSource {} (PushSource.ofBytes lateFrame)) { track := some 1, inner := [] }
  rw [Reader.offered_ofBytes, hends] at hwhole
  have hstream := Reader.apply_eq_showAll (visitor noteDown id)
    (ofSource {} (StreamSource.ofStream (.ofBytes lateFrame) 4)) { track := some 1, inner := [] }
  rw [Reader.offered_ofStream _ _ _ rfl, show Stream.untilEmpty _ = lateFrame from rfl, hends]
    at hstream
  obtain ⟨hbytes, hreads⟩ := hnarrow {}
  exact ⟨houtcome, hframes.trans hlength, by rw [hinner, htimes],
    (Prod.mk.inj (hbytes lateFrame)).2.trans (congrArg Prod.snd hwhole), rfl,
    (Prod.mk.inj ((hreads (.ofBytes lateFrame) 4).1 rfl)).2.trans (congrArg Prod.snd hstream)⟩

/-- A stream that fails behind the headers of a cluster, of a group of blocks and of an empty simple
block. -/
def brokenStream : StreamSource :=
  .ofStream ⟨[.bytes [0x1F, 0x43, 0xB6, 0x75, 0xFF, 0xA0, 0xFF, 0xA3, 0x80],
    .failure ⟨.connectionReset, "reset by peer"⟩], 0⟩ 64

/-- Of that stream the whole ends with the failure, when the group has ended and the block is still to
come. What is read for a table goes past the group and ends with the block, which is no frame. -/
theorem outcomes_of_brokenStream :
    let start : FrameVisit (List FrameEvent) := { inner := [] }
    let narrow : ReaderConfig := { capturePaths := false, filter := some FrameTable.wantedIds }
    let part := apply (visitor noteDown id) (ofSource narrow brokenStream) start
    let all := apply (visitor noteDown id) (ofSource {} brokenStream) start
    all.outcome = .error (.scan (.io ⟨.connectionReset, "reset by peer"⟩)) ∧
      part.outcome = .error (.visitor (.frame (.truncated 0))) := by
  intro start narrow part all
  let cluster : Occurrence := ⟨⟨0x1F43B675, "Cluster", 1, .master, false⟩, 0⟩
  let group : Occurrence := ⟨⟨0xA0, "BlockGroup", 2, .master, false⟩, 1⟩
  let block : Leaf :=
    ⟨⟨⟨0xA3, "SimpleBlock", 2, .binary, false⟩, 2⟩, none, 0, [0xA3, 0x80], [], .lenient⟩
  constructor
  · let r : Reader StreamSource := ofSource {} brokenStream
    have hcluster : r.round = .element (.start cluster (some []) .unknown
        [0x1F, 0x43, 0xB6, 0x75, 0xFF]) (r.rounds 1) := by cbv
    have hgroup : (r.rounds 1).round =
        .element (.start group (some [cluster]) .unknown [0xA0, 0xFF]) (r.rounds 2) := by cbv
    have hended : (r.rounds 2).round =
        .element (.finish group (some [cluster])) (r.rounds 3) := by cbv
    have hfailed : (r.rounds 3).round =
        .stop (.error (.io ⟨.connectionReset, "reset by peer"⟩)) (r.rounds 4) := by cbv
    have hall : (all.outcome, all.visitor) = _ :=
      Reader.apply_eq_showAll (visitor noteDown id) r start
    rw [Reader.offered_of_element hcluster, Reader.offered_of_element hgroup,
      Reader.offered_of_element hended, Reader.offered_of_stop hfailed] at hall
    exact congrArg Prod.fst hall
  · let r : Reader StreamSource := ofSource narrow brokenStream
    have hcluster : r.round = .element (.start cluster none .unknown
        [0x1F, 0x43, 0xB6, 0x75, 0xFF]) (r.rounds 1) := by cbv
    have hblock : (r.rounds 1).round = .element (.leaf block) (r.rounds 2) := by cbv
    have hpart : (part.outcome, part.visitor) = _ :=
      Reader.apply_eq_showAll (visitor noteDown id) r start
    rw [Reader.offered_of_element hcluster, Reader.offered_of_element hblock] at hpart
    exact congrArg Prod.fst hpart

end FrameVisit

end Ebml
