import Mathlib
import Ebml.Proofs.Reader.Chunking

/-!
# Filters and paths

A reader that hands out some ids only, or no paths, reads on and pauses at other places than one
that hands out everything. But its settings do not occur in the transcript of a document: only the
collector looks at them. In a transcript every leaf is told without a break, so what a collector
makes of it is a choice among elements that are the same for all collectors (`Makes`), and a reader
hands out just that choice, then the same ending (`settings_project`).
-/

namespace Ebml

/-- The element without its path. -/
def Element.withoutPath : Element → Element
  | start element _ size header => .start element none size header
  | finish element _ => .finish element none
  | leaf l => .leaf { l with path := none }

namespace Collector

/-- An element as the collector queues it. -/
def present (c : Collector) (e : Element) : Element :=
  if c.capturePaths then e else e.withoutPath

/-- The elements that the collector wants, as it queues them. -/
def choice (c : Collector) (elements : List Element) : List Element :=
  (elements.filter fun e => c.wants e.occurrence.decl.id).map c.present

theorem choice_append (c : Collector) (elements more : List Element) :
    c.choice (elements ++ more) = c.choice elements ++ c.choice more := by
  rw [choice, List.filter_append, List.map_append]
  rfl

theorem choice_of_wanted {c : Collector} {e : Element}
    (h : c.wants e.occurrence.decl.id = true) : c.choice [e] = [c.present e] := by
  simp [choice, h]

theorem choice_of_unwanted {c : Collector} {e : Element}
    (h : c.wants e.occurrence.decl.id = false) : c.choice [e] = [] := by
  simp [choice, h]

theorem occurrence_present (c : Collector) (e : Element) :
    (c.present e).occurrence = e.occurrence := by
  unfold present
  split
  · rfl
  · cases e <;> rfl

section

variable (c : Collector) (o : Occurrence) (path : List Occurrence)

theorem present_start (size : DataSize) (header : Bytes) :
    c.present (.start o (some path) size header) = .start o (c.capture path) size header := by
  unfold present capture
  split <;> rfl

theorem present_finish : c.present (.finish o (some path)) = .finish o (c.capture path) := by
  unfold present capture
  split <;> rfl

theorem present_leaf (size : Nat) (header content : Bytes) (policy : SignBitPolicy) :
    c.present (.leaf ⟨o, some path, size, header, content, policy⟩) =
      .leaf ⟨o, c.capture path, size, header, content, policy⟩ := by
  unfold present capture
  split <;> rfl

end

/-- A list of ids chooses among what is queued without one. -/
theorem choice_filter (c : Collector) (ids : List Nat) (elements : List Element) :
    { c with filter := some ids }.choice elements =
      ({ c with filter := none }.choice elements).filter
        fun e => ids.contains e.occurrence.decl.id := by
  have hall : elements.filter (fun e => { c with filter := none }.wants e.occurrence.decl.id) =
      elements := List.filter_eq_self.mpr fun _ _ => rfl
  rw [choice, choice, hall, List.filter_map]
  simp only [Function.comp_def, occurrence_present]
  rfl

/-- Paths that are not kept are missing and nothing else. -/
theorem choice_paths (c : Collector) (elements : List Element) :
    { c with capturePaths := false }.choice elements =
      ({ c with capturePaths := true }.choice elements).map Element.withoutPath := by
  rw [choice, choice, List.map_map]
  rfl

/-! ## What comes of a transcript -/

/-- Every collector with this policy that is not inside a leaf makes its choice among `elements` of
the events. -/
def Makes (policy : SignBitPolicy) (events : List Event) (elements : List Element) : Prop :=
  ∀ c : Collector, c.collecting = none → c.policy = policy →
    receiver.deliverAll events c = c.enqueueAll (c.choice elements)

/-- Outside of leaves data goes nowhere. -/
theorem deliverAll_content_idle {c : Collector} (h : c.collecting = none) (o : Occurrence)
    (chunks : List Bytes) : receiver.deliverAll (chunks.map (.content o)) c = c := by
  induction chunks with
  | nil => rfl
  | cons chunk rest ih => rw [List.map_cons, deliverAll_cons, handle_content_none h, ih]

namespace Makes

variable {policy : SignBitPolicy} {o : Occurrence} {path : List Occurrence}

theorem nil : Makes policy [] [] := fun c _ _ => c.enqueueAll_nil.symm

/-- After the first events the collector is outside of leaves again. -/
theorem append {events later : List Event} {elements more : List Element}
    (h : Makes policy events elements) (hlater : Makes policy later more) :
    Makes policy (events ++ later) (elements ++ more) := by
  intro c hidle hpolicy
  have hrest := hlater (c.enqueueAll (c.choice elements)) hidle hpolicy
  rw [Receiver.deliverAll_append, h c hidle hpolicy, hrest, enqueueAll_append, choice_append]
  rfl

theorem start (hmaster : o.decl.isMaster = true) (size : DataSize) (header : Bytes)
    (path : List Occurrence) :
    Makes policy [.start o size header path] [.start o (some path) size header] := by
  intro c _ _
  cases hwants : c.wants o.decl.id with
  | false =>
    rw [choice_of_unwanted hwants, enqueueAll_nil]
    exact handle_start_unwanted hwants
  | true =>
    rw [choice_of_wanted hwants, present_start]
    exact handle_start_master hwants hmaster

theorem finish_master (hmaster : o.decl.isMaster = true) (path : List Occurrence) :
    Makes policy [.finish o path] [.finish o (some path)] := by
  intro c _ _
  cases hwants : c.wants o.decl.id with
  | false =>
    rw [choice_of_unwanted hwants, enqueueAll_nil]
    exact handle_finish_unwanted hwants
  | true =>
    rw [choice_of_wanted hwants, present_finish]
    exact handle_finish_master hwants hmaster

/-- Outside of leaves the end of anything but a master means nothing. -/
theorem finish (o : Occurrence) (path : List Occurrence) :
    ∃ elements, Makes policy [.finish o path] elements := by
  cases hmaster : o.decl.isMaster with
  | false =>
    exact ⟨[], fun c hidle _ => (handle_finish_none hidle hmaster).trans c.enqueueAll_nil.symm⟩
  | true => exact ⟨_, finish_master hmaster path⟩

/-- A leaf with all its data in between. -/
theorem leaf (hleaf : o.decl.isMaster = false) (size : DataSize) (header : Bytes)
    (path : List Occurrence) (chunks : List Bytes) :
    Makes policy (.start o size header path :: (chunks.map (.content o) ++ [.finish o path]))
      [.leaf ⟨o, some path, size.known?.getD 0, header, chunks.flatten, policy⟩] := by
  intro c hidle hpolicy
  cases hwants : c.wants o.decl.id with
  | false =>
    -- The start is passed over, so there is no leaf that the data could go to.
    rw [choice_of_unwanted hwants, enqueueAll_nil, deliverAll_cons, handle_start_unwanted hwants,
      Receiver.deliverAll_append, deliverAll_content_idle hidle]
    exact handle_finish_unwanted hwants
  | true =>
    rw [choice_of_wanted hwants, present_leaf, deliverAll_leaf hwants hleaf hidle, hpolicy]

end Makes

/-- A turn tells whole leaves only. -/
theorem makes_of_goes (policy : SignBitPolicy) {p next : Place} {events : List Event}
    (h : p.Goes events next) : ∃ elements, Makes policy events elements := by
  cases h with
  | leave hstack => exact Makes.finish _ _
  | skip n hpos hle => exact ⟨[], .nil⟩
  | enter size hmaster hpos hle => exact ⟨_, .start hmaster size _ _⟩
  | leaf n hleaf hpos hle =>
    obtain ⟨chunks, -, hrest⟩ := exists_chunks _ _ _
    rw [hrest]
    exact ⟨_, .leaf hleaf (.known n) _ _ chunks⟩

theorem makes_finishAll (policy : SignBitPolicy) (stack : List OpenMaster) :
    ∃ elements, Makes policy (Scanner.finishAll stack) elements := by
  induction stack with
  | nil => exact ⟨[], .nil⟩
  | cons m outer ih =>
    obtain ⟨first, hfirst⟩ := @Makes.finish policy m.element (Scanner.pathOf outer)
    obtain ⟨rest, hrest⟩ := ih
    exact ⟨first ++ rest, hfirst.append hrest⟩

/-- Collectors only choose among the elements of a document. -/
theorem makes_transcript (policy : SignBitPolicy) (schema : Schema) (p : Place) :
    ∃ elements, Makes policy (p.transcript schema).events elements := by
  fun_induction Place.transcript schema p with
  | case1 p e h => exact ⟨[], .nil⟩
  | case2 p h => exact makes_finishAll policy p.stack
  | case3 p events next h ih =>
    obtain ⟨first, hfirst⟩ := makes_of_goes policy (Place.goes_of_turn h)
    obtain ⟨rest, hrest⟩ := ih
    exact ⟨first ++ rest, hfirst.append hrest⟩

end Collector

namespace Reader

/-- What a reader with other settings for ids and paths reads in a document. -/
theorem reading_choice (c : ReaderConfig) (bytes : Bytes) :
    ∃ elements, ∀ (paths : Bool) (filter : Option (List Nat)),
      let c' := { c with capturePaths := paths, filter := filter }
      reading c' bytes = ((Collector.ofConfig c').choice elements, (reading c bytes).2) := by
  obtain ⟨elements, hmakes⟩ := Collector.makes_transcript c.policy c.schema { rest := bytes }
  refine ⟨elements, fun paths filter => ?_⟩
  intro c'
  have hpending :
      ((Collector.ofConfig c').enqueueAll ((Collector.ofConfig c').choice elements)).pending =
      (Collector.ofConfig c').choice elements := List.nil_append _
  rw [reading, hmakes (.ofConfig c') rfl rfl, hpending]
  rfl

/-- The elements of one reader are those of another one changed by `f`, and both end alike. -/
structure Taken.Projects {σ : Type} [FiniteSource σ] (f : List Element → List Element)
    (whole part : Taken σ) : Prop where
  elements_eq : part.elements = f whole.elements
  outcome_eq : part.outcome = whole.outcome
  ended : whole.outcome = .ok () →
    whole.reader.mayHaveNext.1 = .ok false ∧ part.reader.mayHaveNext.1 = .ok false

/-- Pushed documents project as their readings do. -/
theorem projects_of_reading {c c' : ReaderConfig} {chunks chunks' : List Bytes}
    {f : List Element → List Element}
    (h : reading c' chunks'.flatten =
      (f (reading c chunks.flatten).1, (reading c chunks.flatten).2)) :
    ((ofSource c {}).feedAll chunks).Projects f ((ofSource c' {}).feedAll chunks') := by
  obtain ⟨hwhole, hdone⟩ := feedAll_eq_reading c chunks
  obtain ⟨hpart, hdone'⟩ := feedAll_eq_reading c' chunks'
  rw [← hwhole, ← hpart] at h
  obtain ⟨helements, houtcome⟩ := Prod.mk.inj h
  exact ⟨helements, houtcome, fun hok => ⟨hdone hok, hdone' (houtcome.trans hok)⟩⟩

/-- A list of ids hands out just the elements with these ids, and leaving paths out changes nothing
but the paths. -/
theorem settings_project (c : ReaderConfig) (ids : List Nat) (chunks chunks' : List Bytes)
    (h : chunks.flatten = chunks'.flatten) :
    ((ofSource { c with filter := none } {}).feedAll chunks).Projects
        (List.filter fun e => ids.contains e.occurrence.decl.id)
        ((ofSource { c with filter := some ids } {}).feedAll chunks') ∧
      ((ofSource { c with capturePaths := true } {}).feedAll chunks).Projects
        (List.map Element.withoutPath)
        ((ofSource { c with capturePaths := false } {}).feedAll chunks') := by
  obtain ⟨elements, hchoice⟩ := reading_choice c chunks.flatten
  constructor
  · apply projects_of_reading
    rw [← h, hchoice c.capturePaths none, hchoice c.capturePaths (some ids)]
    exact congrArg (·, _) (Collector.choice_filter (.ofConfig c) ids elements)
  · apply projects_of_reading
    rw [← h, hchoice true c.filter, hchoice false c.filter]
    exact congrArg (·, _) (Collector.choice_paths (.ofConfig c) elements)

/-- A timestamp in a live cluster and a byte that begins no id. -/
def spoiltCluster : Bytes :=
  [0x18, 0x53, 0x80, 0x67, 0xFF, 0x1F, 0x43, 0xB6, 0x75, 0xFF, 0xE7, 0x81, 5, 0]

/-- With timestamps alone handed out, the one there is keeps its number, its path and the error
behind it. -/
theorem settings_project_of_spoilt_cluster :
    let whole := (ofSource {} {}).feedAll (cut [1] spoiltCluster)
    let part := (ofSource { filter := some [0xE7] } {}).feedAll (cut [4] spoiltCluster)
    whole.elements.map (fun e => (e.occurrence.index, e.depth)) = [(0, 0), (1, 1), (2, 2)] ∧
      part.elements.map (fun e => (e.occurrence.index, e.depth)) = [(2, 2)] ∧
      part.outcome = .error (.header 13 (.idTooWide 9)) ∧
      whole.Projects (List.filter fun e => [0xE7].contains e.occurrence.decl.id) part := by
  intro whole part
  have hproject := (settings_project {} [0xE7] (cut [1] spoiltCluster) (cut [4] spoiltCluster)
    ((flatten_cut _ _).trans (flatten_cut _ _).symm)).1
  have hwhole := (feedAll_eq_reading {} (cut [1] spoiltCluster)).1
  have hpart := (feedAll_eq_reading { filter := some [0xE7] } (cut [4] spoiltCluster)).1
  rw [flatten_cut] at hwhole hpart
  have hall : (reading {} spoiltCluster).1.map (fun e => (e.occurrence.index, e.depth)) =
      [(0, 0), (1, 1), (2, 2)] := by cbv
  have hchosen : (reading { filter := some [0xE7] } spoiltCluster).1.map
      (fun e => (e.occurrence.index, e.depth)) = [(2, 2)] := by cbv
  have hends : (reading { filter := some [0xE7] } spoiltCluster).2 =
      .error (.header 13 (.idTooWide 9)) := by cbv
  rw [← hwhole] at hall
  rw [← hpart] at hchosen hends
  exact ⟨hall, hchosen, hends, hproject⟩

end Reader

end Ebml
