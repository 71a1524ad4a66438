import Mathlib
import Ebml.Proofs.Command.Arriving
import Ebml.Proofs.Command.Counting
import Ebml.Proofs.Reader.Accounting
import Ebml.Proofs.Reader.Padding
import Ebml.Proofs.Reader.Serving
import Ebml.Proofs.Visitor.Framing

/-!
# Commands agree

The commands look at one document in different ways: a check decodes every value by its type, a
table of frames decodes simple blocks by their id and is shown only what it needs, statistics count
both. What a check finds no fault with holds for the others as well (`agree_of_valid`), because an
element has the declaration that the schema has for its id (`declared_of_mem_reading`), so that the
value of a simple block is its frame (`Leaf.Decodes`).
-/

namespace Ebml

open Reader (reading DrainEnd)

/-! ## Declared elements -/

/-- The schema has this declaration for its id. -/
def Occurrence.DeclaredIn (schema : Schema) (o : Occurrence) : Prop :=
  schema.get? o.decl.id = some o.decl

theorem IsPiece.declaredIn {schema : Schema} {pieces : List Piece} {o : Occurrence}
    (h : IsPiece schema pieces o) : o.DeclaredIn schema := by
  rw [IsPiece, List.getElem?_map, Option.map_eq_some_iff] at h
  obtain ⟨p, -, hdecl⟩ := h
  unfold Piece.decl? at hdecl
  split at hdecl
  · rename_i header used _
    have hid : o.decl.id = header.id := by
      simpa using List.find?_some hdecl
    rwa [Occurrence.DeclaredIn, hid]
  · simp at hdecl

namespace Reader

/-- A document that can be read to its end is one that a reader is through with. -/
theorem exists_through {c : ReaderConfig} {bytes : Bytes} (h : (reading c bytes).2 = .ok ()) :
    ∃ r, Through c bytes (reading c bytes).1 r ∧ r.collector.hasPending = false := by
  have hstands : Stands c bytes [] (ofSource c (PushSource.ofBytes bytes)) :=
    .inl ⟨[], [], .refl _, rfl, rfl⟩
  have hstop := drain_spec hstands rfl
  rw [List.nil_append] at hstop
  have hreading := reading_of_stop hstop
  generalize (ofSource c (PushSource.ofBytes bytes)).drain = drained at hstop hreading
  obtain ⟨elements, stop, r⟩ := drained
  rw [hreading] at h ⊢
  cases stop with
  | ended => exact ⟨r, hstop⟩
  | starved => exact hstop.elim
  | unreadable e => simp [DrainEnd.error?] at h
  | malformed e => simp [DrainEnd.error?] at h

/-- What starts in a document has the declaration of its id. -/
theorem declared_of_mem_reading {c : ReaderConfig} {bytes : Bytes}
    (h : (reading c bytes).2 = .ok ()) {e : Element} (he : e ∈ (reading c bytes).1)
    (hfinish : e.isFinish = false) : e.occurrence.DeclaredIn c.schema := by
  obtain ⟨r, ⟨log, t, htrail, -, -, hcollected⟩, -⟩ := exists_through h
  obtain ⟨pieces, htells, -⟩ :=
    htrail.ledger (Scanner.coherent_fresh _ _) (Scanner.ledger_of_begun rfl rfl rfl rfl)
  rw [htrail.frame.schema_eq] at htells
  have hstarted : (Collector.receiver.deliverAll (log ++ t.close.1) (.ofConfig c)).Started
      (·.DeclaredIn c.schema) := by
    apply Collector.Started.deliverAll
    · exact ⟨by simp [Collector.ofConfig], by simp [Collector.ofConfig]⟩
    · intro o size header path hmem
      rcases List.mem_append.mp hmem with hmem | hmem
      · exact (htells.mentioned _ hmem).declaredIn
      · obtain ⟨_, _, heq⟩ := Scanner.finish_of_mem_close hmem
        simp at heq
  rw [hcollected] at hstarted
  exact hstarted.pending e (List.mem_append_left _ he) hfinish

end Reader

/-! ## Values and frames -/

/-- The data has a value, and that of a simple block is a frame. -/
structure Leaf.Decodes (l : Leaf) : Prop where
  value_ok : ∃ v, l.value = .ok v
  frame_ok : l.element.decl.id = Matroska.simpleBlockId → ∃ f, l.frame? = .ok (some f)

/-- The value of a simple block is its frame. -/
theorem Leaf.decodes_of_value {l : Leaf} {v : Value}
    (hdecl : l.element.DeclaredIn Matroska.schema) (h : l.value = .ok v) : l.Decodes := by
  refine ⟨⟨v, h⟩, fun hid => ?_⟩
  have hblock : Matroska.schema.get? Matroska.simpleBlockId =
      some ⟨Matroska.simpleBlockId, "SimpleBlock", 2, .binary, false⟩ := by rfl
  have htype : l.element.decl.type = .binary := by
    rw [Occurrence.DeclaredIn, hid, hblock] at hdecl
    rw [← Option.some.inj hdecl]
  rw [value, Value.decode, htype] at h
  dsimp only at h
  rw [if_pos hid] at h
  rw [frame?, if_pos hid]
  cases hframe : Frame.decode l.content with
  | ok f => exact ⟨f, rfl⟩
  | error e => simp [hframe, Except.mapError, Except.map] at h

/-- Whether it is a simple block. -/
def Element.isSimpleBlock : Element → Bool
  | .leaf l => l.element.decl.id == Matroska.simpleBlockId
  | _ => false

/-- All leaves have values, and all simple blocks are frames. -/
def AllDecode (elements : List Element) : Prop :=
  ∀ l, .leaf l ∈ elements → l.Decodes

theorem AllDecode.tail {e : Element} {rest : List Element} (h : AllDecode (e :: rest)) :
    AllDecode rest :=
  fun l hl => h l (List.mem_cons_of_mem _ hl)

/-- An unfaulted check of elements of the schema means that all decode. -/
theorem allDecode_of_isValid {elements : List Element}
    (hdecl : ∀ e ∈ elements, e.isFinish = false → e.occurrence.DeclaredIn Matroska.schema)
    (h : (Validation.ofElements elements).isValid = true) : AllDecode elements := by
  intro l hl
  have hleaf : l ∈ elements.filterMap Element.leaf? := List.mem_filterMap.mpr ⟨_, hl, rfl⟩
  rw [Validation.ofElements_eq] at h
  simp only [Validation.isValid, Validation.ofDocument, Bool.and_eq_true, beq_iff_eq,
    List.countP_eq_zero, List.isEmpty_iff, List.filterMap_eq_nil_iff] at h
  have hfault := h.2 l hleaf
  rw [Validation.fault?, if_neg (h.1 l hleaf)] at hfault
  split at hfault
  · rename_i v hvalue
    exact Leaf.decodes_of_value (hdecl _ hl rfl) hvalue
  · simp at hfault

/-! ## Tables of frames -/

theorem Leaf.Decodes.legible {l : Leaf} (h : l.Decodes) : l.Legible := by
  refine ⟨fun _ => h.value_ok, ?_⟩
  by_cases hid : l.element.decl.id = Matroska.simpleBlockId
  · obtain ⟨f, hf⟩ := h.frame_ok hid
    exact ⟨some f, hf⟩
  · exact ⟨none, by rw [frame?, if_neg hid]⟩

/-- An element that decodes is reported just if it is a simple block. -/
theorem FrameVisit.length_event? {e : Element} (h : AllDecode [e]) (timecode : Option Nat) :
    (event? none timecode e).toList.length = [e].countP Element.isSimpleBlock := by
  cases e with
  | start => rfl
  | finish => rfl
  | leaf l =>
    by_cases hid : l.element.decl.id = Matroska.simpleBlockId
    · obtain ⟨f, hf⟩ := (h l List.mem_cons_self).frame_ok hid
      simp [event?, hf, Element.isSimpleBlock, hid]
    · simp [event?, Leaf.frame?, Element.isSimpleBlock, hid]

theorem FrameVisit.length_eventsBehind {elements : List Element} (h : AllDecode elements)
    (earlier : List Element) :
    (eventsBehind none earlier elements).length = elements.countP Element.isSimpleBlock := by
  induction elements generalizing earlier with
  | nil => rfl
  | cons e rest ih =>
    have hone : AllDecode [e] := fun l hl => h l (List.mem_cons.mpr (.inl (List.mem_singleton.mp hl)))
    rw [eventsBehind_cons, List.length_append, length_event? hone, ih h.tail, ← List.countP_append,
      List.singleton_append]

/-- A visitor without limit and track finds every simple block of elements that decode. -/
theorem FrameTable.showAll_of_decodes {elements : List Element} (h : AllDecode elements) :
    ∃ visit, (visitor none).showAll elements (.ok ()) (start {}) = (.ok (), visit) ∧
      visit.frames = elements.countP Element.isSimpleBlock ∧
        visit.inner.length = elements.countP Element.isSimpleBlock := by
  obtain ⟨houtcome, hinner, hframes⟩ := FrameVisit.showAll_legible
    (fun event found => (.ok (), event :: found)) id (fun l hl => (h l hl).legible) [] (start {}) rfl
  rw [FrameVisit.callEach_cons] at houtcome hinner hframes
  have hevents := FrameVisit.length_eventsBehind h []
  refine ⟨_, Prod.ext houtcome rfl, ?_, ?_⟩
  · exact (hframes rfl).trans ((Nat.zero_add _).trans hevents)
  · exact (congrArg List.length hinner).trans (by simpa [start] using hevents)

/-! ## Statistics -/

/-- What is shared out among distinct keys is all there. -/
theorem sum_byKey {α β : Type} [DecidableEq β] (key : α → β) (weight : α → Nat) {keys : List β}
    (hkeys : keys.Nodup) {xs : List α} (h : ∀ x ∈ xs, key x ∈ keys) :
    (keys.map fun k => ((xs.filter fun x => key x = k).map weight).sum).sum = (xs.map weight).sum := by
  induction xs with
  | nil => simp
  | cons x rest ih =>
    have hsplit (k : β) : (((x :: rest).filter fun x => key x = k).map weight).sum =
        (if key x = k then weight x else 0) + ((rest.filter fun x => key x = k).map weight).sum := by
      by_cases hk : key x = k <;> simp [hk]
    have hown : (keys.map fun k => if key x = k then weight x else 0).sum = weight x := by
      rw [List.sum_map_eq_nsmul_single (key x) _ fun k hk _ => if_neg (Ne.symm hk),
        List.count_eq_one_of_mem hkeys (h x List.mem_cons_self), if_pos rfl, one_nsmul]
    simp only [hsplit]
    rw [List.sum_map_add, hown, ih fun y hy => h y (List.mem_cons_of_mem x hy), List.map_cons,
      List.sum_cons]

/-- The counts of all tracks add up to the number of frames. -/
theorem TrackCount.sum_rowsOf (frames : List Frame) :
    ((rowsOf frames).map TrackCount.frames).sum = frames.length := by
  have hshares := sum_byKey Frame.track (fun _ => 1) (nodup_tracksOf frames)
    fun f hf => mem_tracksOf.mpr ⟨f, hf, rfl⟩
  simp only [List.map_const', List.sum_replicate, smul_eq_mul, Nat.mul_one] at hshares
  rw [rowsOf, List.map_map]
  exact hshares

namespace Statistics

/-- A simple block is a good frame or a malformed one. -/
theorem length_goodFrames_add (elements : List Element) :
    (goodFrames elements).length + (elements.filterMap Element.leaf?).countP isMalformedFrame =
      elements.countP Element.isSimpleBlock := by
  induction elements with
  | nil => rfl
  | cons e rest ih =>
    rw [List.countP_cons, ← ih, goodFrames, goodFrames]
    cases e with
    | start => rfl
    | finish => rfl
    | leaf l =>
      rw [List.filterMap_cons_some (by rfl : Element.leaf? (.leaf l) = some l), List.filterMap_cons,
        List.countP_cons, goodFrame?, isMalformedFrame, Element.isSimpleBlock, Leaf.frame?]
      by_cases hid : l.element.decl.id = Matroska.simpleBlockId
      · cases hframe : Frame.decode l.content with
        | ok frame => simp [hid, Except.map]; omega
        | error failure => simp [hid, Except.map]; omega
      · simp [hid]

/-- All simple blocks are counted, the good ones by track. -/
theorem sum_tracks_add (elements : List Element) :
    ((ofElements elements).tracks.map TrackCount.frames).sum + (ofElements elements).malformedFrames =
      elements.countP Element.isSimpleBlock := by
  rw [ofElements_eq, ← length_goodFrames_add, ← TrackCount.sum_rowsOf (goodFrames elements)]
  rfl

/-- No simple block is malformed where all decode. -/
theorem malformedFrames_eq_zero {elements : List Element} (h : AllDecode elements) :
    (ofElements elements).malformedFrames = 0 := by
  rw [ofElements_eq]
  refine List.countP_eq_zero.mpr fun l hl => ?_
  obtain ⟨e, he, hleaf⟩ := List.mem_filterMap.mp hl
  have hmem : .leaf l ∈ elements := by
    cases e <;> simp [Element.leaf?] at hleaf
    exact hleaf ▸ he
  obtain ⟨frame?, hframe⟩ := (h l hmem).legible.frame_ok
  simp [isMalformedFrame, hframe]

end Statistics

/-! ## Inputs without a fault -/

/-- A drain without an error came to the end of an input that never failed, and read it off. -/
theorem InputOptions.drain_complete {i : InputOptions} {stream : Stream}
    (h : (i.drain stream).stop.error? = none) :
    let bytes := Stream.untilEmpty stream.answers
    Stream.failuresUntilEmpty stream.answers = [] ∧
      reading (i.configure {}) bytes = ((i.drain stream).elements, .ok ()) ∧
        (i.drain stream).stop = .ended ∧ (i.drain stream).reader.bytesRead = bytes.length := by
  obtain ⟨hstarved, hunfailing⟩ :=
    (Reader.sound_ofStream (i.configure {}) stream i.chunkSize).drain
  have hdrain : (Reader.ofSource (i.configure {}) (.ofStream stream i.chunkSize)).drain =
      i.drain stream := rfl
  rw [hdrain] at hstarved hunfailing
  cases hstop : (i.drain stream).stop with
  | starved => exact absurd hstop hstarved
  | unreadable e => simp [hstop, DrainEnd.error?] at h
  | malformed e => simp [hstop, DrainEnd.error?] at h
  | ended =>
    have hfailures : Stream.failuresUntilEmpty stream.answers = [] := hunfailing hstop
    obtain ⟨helements, hending, hread⟩ := i.drain_spec hfailures
    refine ⟨hfailures, Prod.ext helements.symm ?_, rfl, hread hstop⟩
    rw [hstop] at hending
    cases hread : (reading (i.configure {}) (Stream.untilEmpty stream.answers)).2 with
    | ok => rfl
    | error e => simp [hread, DrainEnd.ofEnding] at hending

namespace Command

/-- What a reader makes of an input that a check finds no fault with. -/
structure Passes (i : InputOptions) (stream : Stream) (elements : List Element) : Prop where
  unfailing : Stream.failuresUntilEmpty stream.answers = []
  reading_eq : reading (i.configure {}) (Stream.untilEmpty stream.answers) = (elements, .ok ())
  isValid : (Validation.ofElements elements).isValid = true

/-- A check succeeds on such inputs only, since it has read to the end then. -/
theorem exists_passes {i : InputOptions} {stream : Stream}
    (h : (validate i stream).exitCode = 0) : Passes i stream (i.drain stream).elements := by
  rw [validate] at h
  dsimp only at h
  cases herror : (i.drain stream).stop.error? with
  | some e => simp [herror, Outcome.exitCode, Failure.isReported] at h
  | none =>
    obtain ⟨hfailures, hreading, -, -⟩ := InputOptions.drain_complete herror
    refine ⟨hfailures, hreading, ?_⟩
    rw [herror] at h
    simpa [Outcome.exitCode_eq_zero_iff] using h

namespace Passes

variable {i : InputOptions} {stream : Stream} {elements : List Element}

theorem allDecode (h : Passes i stream elements) : AllDecode elements := by
  refine allDecode_of_isValid (fun e he => ?_) h.isValid
  have hok : (reading (i.configure {}) (Stream.untilEmpty stream.answers)).2 = .ok () := by
    rw [h.reading_eq]
  exact Reader.declared_of_mem_reading hok (by rwa [h.reading_eq])

theorem inspect_eq (h : Passes i stream elements) (o : InspectionOptions) :
    inspect i o stream = ⟨Inspection.lines o elements, none⟩ := by
  rw [Command.inspect_eq i o h.unfailing, h.reading_eq]
  rfl

theorem validate_eq (h : Passes i stream elements) :
    let masters := elements.countP Element.isStart
    let leaves := (elements.filterMap Element.leaf?).length
    validate i stream =
      ⟨[s!"✓ Structure: {masters + leaves} elements ({masters} containers)",
        s!"✓ Values: all {leaves} leaf values decode",
        s!"✓ Length: {(Stream.untilEmpty stream.answers).length} bytes read"], none⟩ := by
  intro masters leaves
  have hvalid := h.isValid
  rw [Command.validate_eq i h.unfailing, h.reading_eq]
  simp only [hvalid, if_true]
  rw [Validation.ofElements_eq] at hvalid ⊢
  rw [Validation.isValid, Bool.and_eq_true, beq_iff_eq] at hvalid
  rw [Validation.lines, if_pos hvalid.1, Validation.valueLines, if_pos hvalid.2]
  rfl

theorem stats_eq (h : Passes i stream elements) :
    let masters := elements.countP Element.isStart
    let leaves := (elements.filterMap Element.leaf?).length
    let numbers := Statistics.ofElements elements
    stats i stream =
      ⟨[s!"File:      {i.file}  ({(Stream.untilEmpty stream.answers).length} bytes read)",
        s!"Elements:  {masters + leaves} total ({masters} containers, {leaves} leaves), " ++
          s!"max depth {numbers.maxDepth}",
        s!"Unknown-length containers: {numbers.unknownLength}", ""] ++ numbers.nameTable ++
          numbers.trackTable, none⟩ := by
  intro masters leaves numbers
  have hmasters : numbers.containers = masters :=
    congrArg Statistics.containers (Statistics.ofElements_eq elements)
  have hleaves : numbers.leaves = leaves :=
    congrArg Statistics.leaves (Statistics.ofElements_eq elements)
  rw [Command.stats_eq i h.unfailing, h.reading_eq, ← hmasters, ← hleaves]
  dsimp only
  rw [Statistics.lines, Statistics.summary,
    if_pos (Statistics.malformedFrames_eq_zero h.allDecode)]
  rfl

/-- A table of frames has a row for each simple block. -/
theorem frames_eq (h : Passes i stream elements) :
    ∃ rows, rows.length = elements.countP Element.isSimpleBlock ∧
      frames i {} stream =
        ⟨FrameTable.heading :: rows ++ ["---", s!"{rows.length} frame" ++
          if rows.length = 1 then "" else "s"], none⟩ := by
  obtain ⟨visit, hvisit, hcount, hlength⟩ := FrameTable.showAll_of_decodes h.allDecode
  have hrows : (visit.inner.reverse.map FrameTable.line).length = visit.frames := by
    rw [List.length_map, List.length_reverse, hcount, hlength]
  refine ⟨visit.inner.reverse.map FrameTable.line, hrows.trans hcount, ?_⟩
  -- The table is shown only a choice among the elements, and finds the same.
  have hnarrow := FrameVisit.showAll_reading (fun event found => (.ok (), event :: found)) id
    (i.configure {}) (Stream.untilEmpty stream.answers) (FrameTable.start {})
  have hshown : (FrameTable.visitor none).showAll
      (reading (i.configure frameConfig) (Stream.untilEmpty stream.answers)).1
        (reading (i.configure frameConfig) (Stream.untilEmpty stream.answers)).2
          (FrameTable.start {}) = (.ok (), visit) := by
    refine hnarrow.trans ?_
    rw [show reading { i.configure {} with filter := none } (Stream.untilEmpty stream.answers) =
      (elements, .ok ()) from h.reading_eq]
    exact hvisit
  rw [hrows, Command.frames_eq i {} h.unfailing]
  exact congrArg (frameOutcome i) hshown

/-- A leaf is shown with its value and not with what is wrong with it. -/
theorem leaf_shown {l : Leaf} (h : Passes i stream elements) (hl : .leaf l ∈ elements)
    (o : InspectionOptions) (hdepth : ∀ d, o.maxDepth = some d → (Element.leaf l).depth ≤ d) :
    let decl := l.element.decl
    let depth := (Element.leaf l).depth
    ∃ v, l.value = .ok v ∧ Inspection.line? o (.leaf l) = some (
      if o.json then
        (Text.Json.object ([("event", .text "data"), ("name", .text decl.name),
          ("id", .text (hexId decl.id)), ("kind", .text decl.type.label),
          ("element_count", .integer l.element.index), ("depth", .integer depth),
          ("size", .integer l.declaredSize)] ++
            if o.values then [("value", Inspection.valueJson v)] else [])).render
      else
        Text.blanks (2 * depth) ++ (s!"{decl.name} ({hexId decl.id}) " ++
          if o.values then s!"= {v.text}" else s!"size={l.declaredSize}")) := by
  intro decl depth
  obtain ⟨v, hvalue⟩ := (h.allDecode l hl).value_ok
  have hshown : o.maxDepth.any (· < depth) = false := by
    cases hmax : o.maxDepth with
    | none => rfl
    | some d => simpa [depth] using hdepth d hmax
  refine ⟨v, hvalue, ?_⟩
  rw [Inspection.line?, hshown]
  cases hjson : o.json with
  | true =>
    cases hvalues : o.values <;>
      simp [Inspection.record, Inspection.ownMembers, Inspection.eventName, Element.occurrence,
        hvalue, decl, depth]
  | false =>
    cases hvalues : o.values <;>
      simp only [Inspection.treeLine?, Inspection.leafText, Element.occurrence, hvalue,
        Bool.false_eq_true, if_false, if_true] <;> rfl

end Passes

/-- A check that succeeds has read its input. -/
theorem le_of_exitCode_validate {i : InputOptions} {stream : Stream}
    (h : ((⟨i, .validate⟩ : Command).run (.ok stream)).exitCode = 0) :
    i.chunkSize ≤ StreamSource.largestBuffer := by
  by_contra hlarge
  rw [run_of_lt _ stream rfl (Nat.lt_of_not_le hlarge)] at h
  simp [Outcome.exitCode, Failure.isReported] at h

/-- What a check finds no fault with, no command does. Showing it shows each leaf with its value and
none with an error, the table of its frames has a row for each simple block, and the statistics show
as many frames on all tracks together, no malformed one, and else the same elements, masters and bytes
as the check. The chunk size of the other commands need not be that of the check. -/
theorem agree_of_valid (i : InputOptions) (k : Nat) (tree : FileTree) (standardInput : Stream)
    (hk : k = i.chunkSize ∨ k ≤ StreamSource.largestBuffer)
    (hvalid : ((⟨i, .validate⟩ : Command).runIn tree standardInput).exitCode = 0) :
    let answer (task : Task) : Outcome :=
      (⟨{ i with chunkSize := k }, task⟩ : Command).runIn tree standardInput
    ∃ stream, i.openIn tree standardInput = .ok stream ∧
      let elements := (i.drain stream).elements
      let blocks := elements.countP Element.isSimpleBlock
      let masters := elements.countP Element.isStart
      let leaves := (elements.filterMap Element.leaf?).length
      let total := masters + leaves
      let numbers := Statistics.ofElements elements
      let bytesRead := (i.drain stream).reader.bytesRead
      (∀ o, answer (.inspect o) = ⟨elements.filterMap (Inspection.line? o), none⟩) ∧
        (∀ o l, .leaf l ∈ elements → (∀ d, o.maxDepth = some d → (Element.leaf l).depth ≤ d) →
          let decl := l.element.decl
          let depth := (Element.leaf l).depth
          ∃ v, l.value = .ok v ∧ Inspection.line? o (.leaf l) = some (
            if o.json then
              (Text.Json.object ([("event", .text "data"), ("name", .text decl.name),
                ("id", .text (hexId decl.id)), ("kind", .text decl.type.label),
                ("element_count", .integer l.element.index), ("depth", .integer depth),
                ("size", .integer l.declaredSize)] ++
                  if o.values then [("value", Inspection.valueJson v)] else [])).render
            else
              Text.blanks (2 * depth) ++ (s!"{decl.name} ({hexId decl.id}) " ++
                if o.values then s!"= {v.text}" else s!"size={l.declaredSize}"))) ∧
        (∃ rows, rows.length = blocks ∧
          answer (.frames {}) =
            ⟨FrameTable.heading :: rows ++ ["---", s!"{rows.length} frame" ++
              if rows.length = 1 then "" else "s"], none⟩) ∧
        ((⟨i, .validate⟩ : Command).runIn tree standardInput).output =
          [s!"✓ Structure: {total} elements ({masters} containers)",
            s!"✓ Values: all {leaves} leaf values decode",
            s!"✓ Length: {bytesRead} bytes read"] ∧
        ∃ tracks : List TrackCount, (tracks.map TrackCount.frames).sum = blocks ∧
          answer .stats =
            ⟨[s!"File:      {i.file}  ({bytesRead} bytes read)",
              s!"Elements:  {total} total ({masters} containers, {leaves} leaves), " ++
                s!"max depth {numbers.maxDepth}",
              s!"Unknown-length containers: {numbers.unknownLength}", ""] ++ numbers.nameTable ++
                if tracks = [] then []
                else ["", "Frames per track:"] ++ tracks.map fun t =>
                  let cell (width n : Nat) : String := Text.alignRight width (toString n)
                  s!"  track {Text.alignLeft 4 (toString t.track)} {cell 8 t.frames} frames " ++
                    s!"{cell 6 t.keyFrames} key", none⟩ := by
  intro answer
  cases hopen : i.openIn tree standardInput with
  | error e => simp [runIn, hopen, run, Outcome.exitCode, Failure.isReported] at hvalid
  | ok stream =>
    have hrun (k' : Nat) (task : Task) :
        (⟨{ i with chunkSize := k' }, task⟩ : Command).runIn tree standardInput =
          (⟨{ i with chunkSize := k' }, task⟩ : Command).run (.ok stream) := congrArg _ hopen
    -- The check read its input, so it had a buffer.
    have hfits : i.chunkSize ≤ StreamSource.largestBuffer :=
      le_of_exitCode_validate ((congrArg Outcome.exitCode (hrun i.chunkSize .validate)) ▸ hvalid)
    have hfits' : k ≤ StreamSource.largestBuffer := hk.elim (fun heq => heq ▸ hfits) id
    have hcheck : (⟨i, .validate⟩ : Command).runIn tree standardInput = validate i stream :=
      (hrun i.chunkSize .validate).trans (run_of_le _ stream hfits)
    have hanswer (task : Task) : answer task = runTask { i with chunkSize := k } stream task :=
      (hrun k task).trans (run_of_le _ stream hfits')
    rw [hcheck] at hvalid ⊢
    -- What the check found holds of the elements whatever size the pieces are read in.
    have hpasses : Passes i stream (i.drain stream).elements := exists_passes hvalid
    have hpasses' : Passes { i with chunkSize := k } stream (i.drain stream).elements :=
      ⟨hpasses.unfailing, hpasses.reading_eq, hpasses.isValid⟩
    have hread : (i.drain stream).reader.bytesRead = (Stream.untilEmpty stream.answers).length := by
      obtain ⟨-, hstop, hread⟩ := i.drain_spec hpasses.unfailing
      rw [hpasses.reading_eq] at hstop
      exact hread hstop
    refine ⟨stream, rfl, fun o => ?_, fun o l hl => hpasses.leaf_shown hl o, ?_, ?_, ?_⟩
    · exact (hanswer (.inspect o)).trans (hpasses'.inspect_eq o)
    · obtain ⟨rows, hlength, hframes⟩ := hpasses'.frames_eq
      exact ⟨rows, hlength, (hanswer (.frames {})).trans hframes⟩
    · rw [hread, hpasses.validate_eq]
    · refine ⟨(Statistics.ofElements (i.drain stream).elements).tracks, ?_, ?_⟩
      · have hsum := Statistics.sum_tracks_add (i.drain stream).elements
        rwa [Statistics.malformedFrames_eq_zero hpasses.allDecode] at hsum
      · rw [hread]
        refine (hanswer .stats).trans (hpasses'.stats_eq.trans ?_)
        rw [Statistics.trackTable]
        simp only [List.isEmpty_iff]
        rfl

/-- A cluster with a timecode and a frame, asked for byte by byte. -/
theorem agree_of_valid_one_frame :
    let tree : FileTree := ⟨.directory [], []⟩
    let standardInput := Stream.ofBytes [0x1F, 0x43, 0xB6, 0x75, 0x8A, 0xE7, 0x81, 5, 0xA3, 0x85,
      0x81, 0, 0, 0x80, 0xAB]
    let i : InputOptions := { file := "-" }
    ((⟨i, .validate⟩ : Command).runIn tree standardInput).exitCode = 0 ∧
      ∃ row, (⟨{ i with chunkSize := 1 }, .frames {}⟩ : Command).runIn tree standardInput =
        ⟨[FrameTable.heading, row, "---", "1 frame"], none⟩ := by
  intro tree standardInput i
  have hopen : i.openIn tree standardInput = .ok standardInput := by cbv
  have hblocks : ((reading (i.configure {})
      (Stream.untilEmpty standardInput.answers)).1.countP Element.isSimpleBlock) = 1 := by cbv
  have hvalid : ((⟨i, .validate⟩ : Command).runIn tree standardInput).exitCode = 0 := by
    rw [exitCode_validate i tree (by cbv) (by decide) rfl]
    cbv
  refine ⟨hvalid, ?_⟩
  obtain ⟨stream, hstream, -, -, ⟨rows, hrows, hframes⟩, -⟩ :=
    agree_of_valid i 1 tree standardInput (.inr (by decide)) hvalid
  obtain rfl := Except.ok.inj (hopen.symm.trans hstream)
  rw [(i.drain_spec rfl).1, hblocks] at hrows
  obtain ⟨row, rfl⟩ := List.length_eq_one_iff.mp hrows
  have hcount : s!"{[row].length} frame" ++ (if [row].length = 1 then "" else "s") = "1 frame" := by
    cbv
  rw [hcount] at hframes
  exact ⟨row, hframes⟩

end Command

end Ebml
