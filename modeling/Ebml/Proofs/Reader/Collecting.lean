import Ebml.Collector
import Ebml.Proofs.Document.Transcript

/-!
# What a collector makes of events

A collector does not look at the elements waiting in it, so handing some of them out at once or later
comes to the same (`deliverAll_behind`). Nor does it matter in how many pieces the data of a leaf is
delivered (`deliverAll_bytewise`).
-/

namespace Ebml.Collector

/-- The collector with some more elements waiting before all others. -/
def behind (front : List Element) (c : Collector) : Collector :=
  { c with pending := front ++ c.pending }

/-- Several more elements at the end of the queue. -/
def enqueueAll (c : Collector) (elements : List Element) : Collector :=
  { c with pending := c.pending ++ elements }

theorem enqueueAll_nil (c : Collector) : c.enqueueAll [] = c := by
  simp [enqueueAll]

theorem enqueueAll_append (c : Collector) (elements more : List Element) :
    (c.enqueueAll elements).enqueueAll more = c.enqueueAll (elements ++ more) := by
  simp [enqueueAll]

theorem deliverAll_cons (event : Event) (rest : List Event) (c : Collector) :
    receiver.deliverAll (event :: rest) c = receiver.deliverAll rest (handle event c) := rfl

theorem enqueue_behind (front : List Element) (c : Collector) (e : Element) :
    (c.behind front).enqueue e = (c.enqueue e).behind front := by
  simp [behind, enqueue]

/-- Without a filter everything is wanted. -/
theorem wants_of_filter {c : Collector} (h : c.filter = none) (id : Nat) : c.wants id = true := by
  rw [wants, h]

/-! ## Event by event -/

section

variable {c : Collector} {o : Occurrence} {size : DataSize} {header : Bytes} {path : List Occurrence}

theorem handle_start_unwanted (h : c.wants o.decl.id = false) :
    handle (.start o size header path) c = c := by
  simp [handle, h]

theorem handle_start_master (h : c.wants o.decl.id = true) (hmaster : o.decl.isMaster = true) :
    handle (.start o size header path) c = c.enqueue (.start o (c.capture path) size header) := by
  simp [handle, h, hmaster]

theorem handle_start_leaf (h : c.wants o.decl.id = true) (hleaf : o.decl.isMaster = false) :
    handle (.start o size header path) c =
      { c with
        collecting := some ⟨o, c.capture path, size.known?.getD 0, header, [], c.policy⟩ } := by
  simp [handle, h, hleaf]

theorem handle_content_none {chunk : Bytes} (h : c.collecting = none) :
    handle (.content o chunk) c = c := by
  simp [handle, h]

theorem handle_content_own {chunk : Bytes} {l : Leaf} (h : c.collecting = some l)
    (hindex : l.element.index = o.index) :
    handle (.content o chunk) c =
      { c with collecting := some { l with content := l.content ++ chunk } } := by
  simp [handle, h, hindex]

theorem handle_content_other {chunk : Bytes} {l : Leaf} (h : c.collecting = some l)
    (hindex : l.element.index ≠ o.index) : handle (.content o chunk) c = c := by
  simp [handle, h, hindex]

theorem handle_finish_unwanted (h : c.wants o.decl.id = false) :
    handle (.finish o path) c = c := by
  simp [handle, h]

theorem handle_finish_master (h : c.wants o.decl.id = true) (hmaster : o.decl.isMaster = true) :
    handle (.finish o path) c = c.enqueue (.finish o (c.capture path)) := by
  simp [handle, h, hmaster]

theorem handle_finish_none (h : c.collecting = none) (hleaf : o.decl.isMaster = false) :
    handle (.finish o path) c = c := by
  simp [handle, h, hleaf]

theorem handle_finish_own {l : Leaf} (h : c.wants o.decl.id = true)
    (hleaf : o.decl.isMaster = false) (hl : c.collecting = some l)
    (hindex : l.element.index = o.index) :
    handle (.finish o path) c = { c.enqueue (.leaf l) with collecting := none } := by
  simp [handle, h, hleaf, hl, hindex]

theorem handle_finish_other {l : Leaf} (hleaf : o.decl.isMaster = false)
    (hl : c.collecting = some l) (hindex : l.element.index ≠ o.index) :
    handle (.finish o path) c = c := by
  simp [handle, hleaf, hl, hindex]

end

/-- What comes of an event does not depend on what is waiting. -/
theorem handle_behind (event : Event) (front : List Element) (c : Collector) :
    handle event (c.behind front) = (handle event c).behind front := by
  have hwants (id : Nat) : (c.behind front).wants id = c.wants id := rfl
  have hcollecting : (c.behind front).collecting = c.collecting := rfl
  -- What is done depends on what is wanted and collected, which both collectors have in common.
  cases event with
  | start o size header path =>
    cases hw : c.wants o.decl.id with
    | false => rw [handle_start_unwanted hw, handle_start_unwanted ((hwants _).trans hw)]
    | true =>
      have hw' := (hwants _).trans hw
      cases hmaster : o.decl.isMaster with
      | true =>
        rw [handle_start_master hw hmaster, handle_start_master hw' hmaster, enqueue_behind]
        rfl
      | false =>
        rw [handle_start_leaf hw hmaster, handle_start_leaf hw' hmaster]
        rfl
  | content o chunk =>
    cases hc : c.collecting with
    | none => rw [handle_content_none hc, handle_content_none (hcollecting.trans hc)]
    | some l =>
      have hc' := hcollecting.trans hc
      by_cases hindex : l.element.index = o.index
      · rw [handle_content_own hc hindex, handle_content_own hc' hindex]
        rfl
      · rw [handle_content_other hc hindex, handle_content_other hc' hindex]
  | finish o path =>
    cases hw : c.wants o.decl.id with
    | false => rw [handle_finish_unwanted hw, handle_finish_unwanted ((hwants _).trans hw)]
    | true =>
      have hw' := (hwants _).trans hw
      cases hmaster : o.decl.isMaster with
      | true =>
        rw [handle_finish_master hw hmaster, handle_finish_master hw' hmaster, enqueue_behind]
        rfl
      | false =>
        cases hc : c.collecting with
        | none =>
          rw [handle_finish_none hc hmaster, handle_finish_none (hcollecting.trans hc) hmaster]
        | some l =>
          have hc' := hcollecting.trans hc
          by_cases hindex : l.element.index = o.index
          · rw [handle_finish_own hw hmaster hc hindex, handle_finish_own hw' hmaster hc' hindex,
              enqueue_behind]
            rfl
          · rw [handle_finish_other hmaster hc hindex, handle_finish_other hmaster hc' hindex]

theorem deliverAll_behind (events : List Event) (front : List Element) (c : Collector) :
    receiver.deliverAll events (c.behind front) = (receiver.deliverAll events c).behind front := by
  induction events generalizing c with
  | nil => rfl
  | cons event rest ih =>
    show receiver.deliverAll rest (handle event (c.behind front)) = _
    rw [handle_behind, ih]
    rfl

/-- Events change what is waiting and what is collected, and no setting. -/
theorem handle_keeps (event : Event) (c : Collector) :
    ∃ pending collecting,
      handle event c = { c with pending := pending, collecting := collecting } := by
  unfold handle
  split
  · split
    · exact ⟨_, _, rfl⟩
    · split <;> exact ⟨_, _, rfl⟩
  · split
    · split <;> exact ⟨_, _, rfl⟩
    · exact ⟨_, _, rfl⟩
  · split
    · exact ⟨_, _, rfl⟩
    · split
      · exact ⟨_, _, rfl⟩
      · split
        · split <;> exact ⟨_, _, rfl⟩
        · exact ⟨_, _, rfl⟩

theorem deliverAll_keeps (events : List Event) (c : Collector) :
    ∃ pending collecting,
      receiver.deliverAll events c = { c with pending := pending, collecting := collecting } := by
  induction events generalizing c with
  | nil => exact ⟨_, _, rfl⟩
  | cons event rest ih =>
    obtain ⟨_, _, hfirst⟩ := handle_keeps event c
    obtain ⟨pending, collecting, hrest⟩ := ih (handle event c)
    rw [deliverAll_cons, hrest, hfirst]
    exact ⟨pending, collecting, rfl⟩

/-! ## Data in pieces -/

theorem handle_content_append (o : Occurrence) (bytes more : Bytes) (c : Collector) :
    handle (.content o (bytes ++ more)) c = handle (.content o more) (handle (.content o bytes) c) := by
  cases hc : c.collecting with
  | none => rw [handle_content_none hc, handle_content_none hc, handle_content_none hc]
  | some l =>
    by_cases hindex : l.element.index = o.index
    · have hindex' : { l with content := l.content ++ bytes }.element.index = o.index := hindex
      rw [handle_content_own hc hindex, handle_content_own hc hindex, handle_content_own rfl hindex']
      simp
    · rw [handle_content_other hc hindex, handle_content_other hc hindex,
        handle_content_other hc hindex]

theorem handle_content_nil (o : Occurrence) (c : Collector) : handle (.content o []) c = c := by
  cases hc : c.collecting with
  | none => exact handle_content_none hc
  | some l =>
    by_cases hindex : l.element.index = o.index
    · rw [handle_content_own hc hindex]
      simp [← hc]
    · exact handle_content_other hc hindex

/-- The data of an element comes to the same at once and byte by byte. -/
theorem deliverAll_dataEvents (o : Occurrence) (bytes : Bytes) (c : Collector) :
    receiver.deliverAll (dataEvents o bytes) c = handle (.content o bytes) c := by
  induction bytes generalizing c with
  | nil => rw [handle_content_nil]; rfl
  | cons b rest ih =>
    show receiver.deliverAll (dataEvents o rest) (handle (.content o [b]) c) = _
    rw [ih, ← handle_content_append]
    rfl

theorem deliverAll_bytewise (events : List Event) (c : Collector) :
    receiver.deliverAll (events.flatMap Event.bytewise) c = receiver.deliverAll events c := by
  induction events generalizing c with
  | nil => rfl
  | cons event rest ih =>
    rw [List.flatMap_cons, Receiver.deliverAll_append, ih]
    cases event with
    | content o chunk =>
      rw [Event.bytewise, deliverAll_dataEvents]
      rfl
    | start => rfl
    | finish => rfl

/-! ## Whole elements -/

/-- Data byte by byte is data in pieces. -/
theorem exists_chunks (o : Occurrence) (path : List Occurrence) (content : Bytes) :
    ∃ chunks : List Bytes, chunks.flatten = content ∧
      restOfLeaf (some o) path content = chunks.map (.content o) ++ [.finish o path] := by
  refine ⟨content.map fun b => [b], ?_, ?_⟩
  · rw [← List.flatMap_def, List.flatMap_singleton']
  · rw [restOfLeaf, dataEvents, List.map_map]
    rfl

/-- The data of a leaf is collected piece by piece. -/
theorem deliverAll_content {c : Collector} {l : Leaf} (h : c.collecting = some l)
    (chunks : List Bytes) :
    receiver.deliverAll (chunks.map (.content l.element)) c =
      { c with collecting := some { l with content := l.content ++ chunks.flatten } } := by
  induction chunks generalizing c l with
  | nil =>
    rw [List.flatten_nil, List.append_nil, ← h]
    rfl
  | cons chunk rest ih =>
    rw [List.map_cons, deliverAll_cons, handle_content_own h rfl]
    have hrest := @ih { c with collecting := some { l with content := l.content ++ chunk } }
      { l with content := l.content ++ chunk } rfl
    rw [hrest, List.flatten_cons, ← List.append_assoc]

section

variable {c : Collector} {o : Occurrence}

/-- A leaf that is wanted comes to one element with all its data. -/
theorem deliverAll_leaf (hwants : c.wants o.decl.id = true) (hleaf : o.decl.isMaster = false)
    (hnone : c.collecting = none) (size : DataSize) (header : Bytes) (path : List Occurrence)
    (chunks : List Bytes) :
    receiver.deliverAll
        (.start o size header path :: (chunks.map (.content o) ++ [.finish o path])) c =
      c.enqueueAll
        [.leaf ⟨o, c.capture path, size.known?.getD 0, header, chunks.flatten, c.policy⟩] := by
  rw [deliverAll_cons, handle_start_leaf hwants hleaf, Receiver.deliverAll_append]
  have hcontent := @deliverAll_content
    { c with collecting := some ⟨o, c.capture path, size.known?.getD 0, header, [], c.policy⟩ }
    ⟨o, c.capture path, size.known?.getD 0, header, [], c.policy⟩ rfl chunks
  have hfinish := @handle_finish_own
    { c with
      collecting := some ⟨o, c.capture path, size.known?.getD 0, header, chunks.flatten, c.policy⟩ }
    o path _ hwants hleaf rfl rfl
  rw [hcontent, deliverAll_cons, List.nil_append, hfinish]
  simp [enqueue, enqueueAll, hnone, Receiver.deliverAll]

/-- So it does where its data is told byte by byte. -/
theorem deliverAll_leafEvents (hwants : c.wants o.decl.id = true) (hleaf : o.decl.isMaster = false)
    (hnone : c.collecting = none) (size : DataSize) (header content : Bytes)
    (path : List Occurrence) :
    receiver.deliverAll (.start o size header path :: restOfLeaf (some o) path content) c =
      c.enqueueAll
        [.leaf ⟨o, c.capture path, size.known?.getD 0, header, content, c.policy⟩] := by
  obtain ⟨chunks, rfl, hrest⟩ := exists_chunks o path content
  rw [hrest, deliverAll_leaf hwants hleaf hnone]

/-- A master that is wanted stands before and behind the elements in it. -/
theorem deliverAll_master {size : DataSize} {header : Bytes} {path : List Occurrence}
    {inner : List Event} {elements : List Element} (hwants : c.wants o.decl.id = true)
    (hmaster : o.decl.isMaster = true)
    (hinner : receiver.deliverAll inner (c.enqueueAll [.start o (c.capture path) size header]) =
      (c.enqueueAll [.start o (c.capture path) size header]).enqueueAll elements) :
    receiver.deliverAll (.start o size header path :: (inner ++ [.finish o path])) c =
      c.enqueueAll
        (.start o (c.capture path) size header :: (elements ++ [.finish o (c.capture path)])) := by
  have hfinish (d : Collector) (hd : d.wants o.decl.id = true) :
      handle (.finish o path) d = d.enqueueAll [.finish o (d.capture path)] :=
    handle_finish_master hd hmaster
  rw [deliverAll_cons, handle_start_master hwants hmaster, Receiver.deliverAll_append]
  show receiver.deliverAll [_] (receiver.deliverAll inner (c.enqueueAll [_])) = _
  rw [hinner, enqueueAll_append, deliverAll_cons, hfinish (c.enqueueAll _) hwants,
    enqueueAll_append]
  rfl

end

/-! ## Collectors that leave nothing out -/

/-- A collector that wants everything, keeps paths, and is not collecting a leaf. -/
structure Plain (c : Collector) : Prop where
  filter_eq : c.filter = none
  paths_eq : c.capturePaths = true
  idle : c.collecting = none

namespace Plain

variable {c : Collector}

theorem enqueueAll (h : c.Plain) (elements : List Element) : (c.enqueueAll elements).Plain :=
  ⟨h.filter_eq, h.paths_eq, h.idle⟩

theorem capture_eq (h : c.Plain) (path : List Occurrence) : c.capture path = some path := by
  rw [capture, if_pos h.paths_eq]

theorem deliverAll_leafEvents (h : c.Plain) {o : Occurrence} (hleaf : o.decl.isMaster = false)
    (n : Nat) (header content : Bytes) (path : List Occurrence) :
    receiver.deliverAll (.start o (.known n) header path :: restOfLeaf (some o) path content) c =
      c.enqueueAll [.leaf ⟨o, some path, n, header, content, c.policy⟩] := by
  rw [Collector.deliverAll_leafEvents (wants_of_filter h.filter_eq _) hleaf h.idle, h.capture_eq]
  rfl

end Plain

end Ebml.Collector
