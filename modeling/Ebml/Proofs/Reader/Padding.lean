import Ebml.Proofs.Document.Shifting
import Ebml.Proofs.Reader.Settling

/-!
# Padding

Void elements and elements outside the schema may stand anywhere, and a reader must not be led astray
by them. Where no master of known length is open, one such element more or less changes nothing but
numbers and offsets: the place behind it is the place before it, moved (`Place.Moved`), a transcript
from there is the same transcript, and a collector makes the same elements of it
(`Collector.deliverAll_renumber`). So the elements before the padding stay as they are, those behind it
count one higher, and a void is handed out in between (`padding_is_invisible`).
-/

namespace Ebml

/-! ## Elements with other numbers -/

/-- The leaf when one more element comes before number `n`. -/
def Leaf.renumber (n : Nat) (l : Leaf) : Leaf :=
  { l with
    element := l.element.renumber n
    path := l.path.map (List.map (Occurrence.renumber n)) }

/-- The element when one more comes before number `n`. -/
def Element.renumber (n : Nat) : Element → Element
  | start o path size header =>
    .start (o.renumber n) (path.map (List.map (Occurrence.renumber n))) size header
  | finish o path => .finish (o.renumber n) (path.map (List.map (Occurrence.renumber n)))
  | leaf l => .leaf (l.renumber n)

namespace Collector

/-- The collector when one more element comes before number `n`. -/
def renumber (n : Nat) (c : Collector) : Collector :=
  { c with
    pending := c.pending.map (Element.renumber n)
    collecting := c.collecting.map (Leaf.renumber n) }

section

variable (n : Nat) (c : Collector)

theorem capture_renumber (path : List Occurrence) :
    (c.renumber n).capture (path.map (Occurrence.renumber n)) =
      (c.capture path).map (List.map (Occurrence.renumber n)) := by
  unfold capture
  cases hpaths : c.capturePaths <;> simp [renumber, hpaths]

theorem enqueue_renumber (e : Element) :
    (c.renumber n).enqueue (e.renumber n) = (c.enqueue e).renumber n := by
  simp [enqueue, renumber]

/-- A collector does not care for numbers but to tell one leaf from another. -/
theorem handle_renumber (event : Event) :
    handle (event.renumber n) (c.renumber n) = (handle event c).renumber n := by
  have hdecl (o : Occurrence) := o.decl_renumber n
  have hwants (o : Occurrence) : (c.renumber n).wants (o.renumber n).decl.id = c.wants o.decl.id := by
    rw [hdecl]
    rfl
  have hcollecting {found : Option Leaf} (h : c.collecting = found) :
      (c.renumber n).collecting = found.map (Leaf.renumber n) :=
    congrArg (Option.map (Leaf.renumber n)) h
  -- Only data and the end of a leaf look at numbers, to compare two of them, and renumbering keeps
  -- different ones apart.
  cases event with
  | start o size header path =>
    rw [Event.renumber]
    by_cases hw : c.wants o.decl.id = true
    · by_cases hmaster : o.decl.isMaster = true
      · rw [handle_start_master hw hmaster,
          handle_start_master ((hwants o).trans hw) (hdecl o ▸ hmaster), capture_renumber]
        exact enqueue_renumber n c (.start o (c.capture path) size header)
      · rw [Bool.not_eq_true] at hmaster
        rw [handle_start_leaf hw hmaster,
          handle_start_leaf ((hwants o).trans hw) (hdecl o ▸ hmaster), capture_renumber]
        rfl
    · rw [Bool.not_eq_true] at hw
      rw [handle_start_unwanted hw, handle_start_unwanted ((hwants o).trans hw)]
  | content o chunk =>
    rw [Event.renumber]
    cases hc : c.collecting with
    | none => rw [handle_content_none hc, handle_content_none (hcollecting hc)]
    | some l =>
      have hc' := hcollecting hc
      by_cases hindex : l.element.index = o.index
      · have hindex' : (l.renumber n).element.index = (o.renumber n).index :=
          Occurrence.index_renumber_inj.mpr hindex
        rw [handle_content_own hc hindex, handle_content_own hc' hindex']
        rfl
      · have hindex' : (l.renumber n).element.index ≠ (o.renumber n).index :=
          mt Occurrence.index_renumber_inj.mp hindex
        rw [handle_content_other hc hindex, handle_content_other hc' hindex']
  | finish o path =>
    rw [Event.renumber]
    by_cases hw : c.wants o.decl.id = true
    · have hw' := (hwants o).trans hw
      by_cases hmaster : o.decl.isMaster = true
      · rw [handle_finish_master hw hmaster, handle_finish_master hw' (hdecl o ▸ hmaster),
          capture_renumber]
        exact enqueue_renumber n c (.finish o (c.capture path))
      · rw [Bool.not_eq_true] at hmaster
        have hmaster' : (o.renumber n).decl.isMaster = false := hdecl o ▸ hmaster
        cases hc : c.collecting with
        | none =>
          rw [handle_finish_none hc hmaster, handle_finish_none (hcollecting hc) hmaster']
        | some l =>
          have hc' := hcollecting hc
          by_cases hindex : l.element.index = o.index
          · have hindex' : (l.renumber n).element.index = (o.renumber n).index :=
              Occurrence.index_renumber_inj.mpr hindex
            rw [handle_finish_own hw hmaster hc hindex, handle_finish_own hw' hmaster' hc' hindex']
            simp [enqueue, renumber, Element.renumber]
          · have hindex' : (l.renumber n).element.index ≠ (o.renumber n).index :=
              mt Occurrence.index_renumber_inj.mp hindex
            rw [handle_finish_other hmaster hc hindex, handle_finish_other hmaster' hc' hindex']
    · rw [Bool.not_eq_true] at hw
      rw [handle_finish_unwanted hw, handle_finish_unwanted ((hwants o).trans hw)]

theorem deliverAll_renumber (events : List Event) :
    receiver.deliverAll (events.map (Event.renumber n)) (c.renumber n) =
      (receiver.deliverAll events c).renumber n := by
  induction events generalizing c with
  | nil => rfl
  | cons event rest ih =>
    rw [List.map_cons, deliverAll_cons, deliverAll_cons, handle_renumber, ih]

end

/-! ## What was started -/

/-- Everything that starts here, or the leaf of which is collected, is as `P` says. -/
structure Started (P : Occurrence → Prop) (c : Collector) : Prop where
  pending : ∀ e ∈ c.pending, e.isFinish = false → P e.occurrence
  collecting : ∀ l ∈ c.collecting, P l.element

theorem Started.enqueue {P : Occurrence → Prop} {c : Collector} {e : Element} (h : c.Started P)
    (he : e.isFinish = false → P e.occurrence) : (c.enqueue e).Started P := by
  refine ⟨fun e' he' => ?_, h.collecting⟩
  rcases List.mem_append.mp he' with he' | he'
  · exact h.pending e' he'
  · rw [List.mem_singleton.mp he']
    exact he

/-- Nothing is put together but what an event started. -/
theorem Started.handle {P : Occurrence → Prop} {c : Collector} (h : c.Started P) (event : Event)
    (hevent : ∀ o size header path, event = .start o size header path → P o) :
    (handle event c).Started P := by
  unfold Collector.handle
  split
  · rename_i o size header path
    have ho := hevent o size header path rfl
    split
    · exact h
    · split
      · exact h.enqueue fun _ => ho
      · exact ⟨h.pending, fun l hl => Option.some.inj hl ▸ ho⟩
  · split
    · rename_i l hl
      split
      · exact ⟨h.pending, fun l' hl' => Option.some.inj hl' ▸ h.collecting l hl⟩
      · exact h
    · exact h
  · split
    · exact h
    · split
      · exact h.enqueue (by simp [Element.isFinish])
      · split
        · rename_i l hl
          split
          · -- The leaf that waits now is the one that was collected.
            have hqueued := h.enqueue (e := .leaf l) fun _ => h.collecting l hl
            exact ⟨hqueued.pending, by simp⟩
          · exact h
        · exact h

theorem Started.deliverAll {P : Occurrence → Prop} {c : Collector} (h : c.Started P)
    {events : List Event}
    (hevents : ∀ o size header path, .start o size header path ∈ events → P o) :
    (receiver.deliverAll events c).Started P := by
  induction events generalizing c with
  | nil => exact h
  | cons event rest ih =>
    refine ih (h.handle event fun o size header path heq => ?_) fun o size header path hmem => ?_
    · exact hevents o size header path (heq ▸ List.mem_cons_self)
    · exact hevents o size header path (List.mem_cons_of_mem _ hmem)

end Collector

/-! ## One more element that closes nothing -/

/-- An element with all its data that ends no master: it is outside the schema, or it is a global
element without children. -/
structure IsPadding (schema : Schema) (u : Piece) : Prop where
  lacks : u.Lacks schema 0
  global : ∀ decl ∈ u.decl? schema, decl.isGlobal = true ∧ decl.isMaster = false

/-- What is told of an element without children, if the schema has it. -/
def Piece.events (schema : Schema) (u : Piece) (index : Nat) (path : List Occurrence) : List Event :=
  match u.decl? schema with
  | none => []
  | some decl =>
    .start ⟨decl, index⟩ (.known u.content.length) u.header path ::
      restOfLeaf (some ⟨decl, index⟩) path u.content

/-- What a reader hands out of an element without children, if the schema has it. -/
def Piece.elements (c : ReaderConfig) (u : Piece) (index : Nat) (path : List Occurrence) :
    List Element :=
  match u.decl? c.schema with
  | none => []
  | some decl =>
    [.leaf ⟨⟨decl, index⟩, (Collector.ofConfig c).capture path, u.content.length, u.header, u.content,
      c.policy⟩]

namespace IsPadding

variable {schema : Schema} {u : Piece}

/-- The header of the padding, and how much data it says there is. -/
theorem exists_header (h : IsPadding schema u) (rest : Bytes) :
    ∃ header, Header.decode (u.raw ++ rest) = .ok (some (header, u.header.length)) ∧
      schema.get? header.id = u.decl? schema ∧ header.size = .known u.content.length := by
  obtain ⟨header, hdec, hsize⟩ := h.lacks
  have hdecl : u.decl? schema = schema.get? header.id := Piece.decl?_of_decode hdec
  refine ⟨header, ?_, hdecl.symm, ?_⟩
  · rw [Piece.raw, List.append_assoc]
    exact Header.decode_append hdec _
  · -- Nothing that has children is padding.
    have hleaf : (schema.get? header.id).any ElementDecl.isMaster = false := by
      rw [← hdecl]
      cases hfound : u.decl? schema with
      | none => rfl
      | some decl => exact (h.global decl hfound).2
    rwa [if_neg (by simp [hleaf])] at hsize

/-- Where no master of known length is open padding is passed over. -/
theorem transcript_eq {p : Place} {rest : Bytes} (h : IsPadding schema u)
    (hrest : p.rest = u.raw ++ rest) (hunknown : ∀ m ∈ p.stack, m.stop? = none) :
    p.transcript schema =
      ((p.skip u.raw.length).transcript schema).after
        (u.events schema p.index (Scanner.pathOf p.stack)) := by
  obtain ⟨header, hdec, hdecl, hsize⟩ := h.exists_header rest
  have hlength : u.header.length + u.content.length = u.raw.length := List.length_append.symm
  have hheader : p.HasHeader header u.header.length := by
    refine ⟨?_, hrest ▸ hdec⟩
    rw [Place.isExhausted, List.any_eq_false]
    intro m hm
    simp [hunknown m hm]
  rw [Piece.events]
  cases hfound : u.decl? schema with
  | none =>
    rw [hheader.transcript_skip (hdecl.trans hfound) hsize, hlength]
    rfl
  | some decl =>
    -- A global element ends no master by its level, so it is a leaf where it stands.
    obtain ⟨hglobal, hleaf⟩ := h.global decl hfound
    have hstay : ∀ m ∈ p.stack.head?, p.endsByLevel decl m = false := by
      intro m _
      simp [Place.endsByLevel, hglobal]
    have htake : p.rest.take u.header.length = u.header := by simp [hrest, Piece.raw]
    have hdata : (p.rest.drop u.header.length).take u.content.length = u.content := by
      simp [hrest, Piece.raw]
    rw [hheader.transcript_leaf (hdecl.trans hfound) hsize hleaf hstay, htake, hdata, hlength]

/-- A void comes to one element with all its data. -/
theorem deliverAll_events {c : ReaderConfig} (h : IsPadding c.schema u) (hfilter : c.filter = none)
    (index : Nat) (path : List Occurrence) :
    Collector.receiver.deliverAll (u.events c.schema index path) (.ofConfig c) =
      (Collector.ofConfig c).behind (u.elements c index path) := by
  rw [Piece.events, Piece.elements]
  cases hfound : u.decl? c.schema with
  | none => rfl
  | some decl =>
    obtain ⟨-, hleaf⟩ := h.global decl hfound
    have hwants := Collector.wants_of_filter (c := .ofConfig c) hfilter decl.id
    exact Collector.deliverAll_leafEvents hwants hleaf rfl _ _ _ _

end IsPadding

/-- A place without masters of known length has moved once padding is passed over. -/
theorem Place.moved_skip {p p' : Place} {d : Nat} (hstack : p'.stack = p.stack)
    (hoffset : p'.offset = p.offset) (hindex : p'.index = p.index) (hrest : p'.rest.drop d = p.rest)
    (hunknown : ∀ m ∈ p.stack, m.stop? = none ∧ m.element.index < p.index) :
    p.Moved p.index d (p'.skip d) where
  stack := by
    show List.Forall₂ _ p.stack p'.stack
    rw [hstack, List.forall₂_same]
    intro m hm
    obtain ⟨hstop, hlt⟩ := hunknown m hm
    exact ⟨(Occurrence.renumber_of_lt hlt).symm, by rw [hstop]; rfl⟩
  offset_eq := congrArg (· + d) hoffset
  index_eq := congrArg (· + 1) hindex
  rest_eq := hrest
  le_index := Nat.le_refl _

namespace Reader

variable {c : ReaderConfig} {x : Bytes} {before : List Element} {r : Reader PushSource}

/-! ## Reading on at a boundary -/

/-- A parse that was never paused and did not fail took everything. -/
theorem trail_of_parse {κ : Type} {r : Receiver κ} {k : κ} {p : Scanner.Parsed PushSource κ}
    (hp : Scanner.parse r (beginning c) (.ofBytes x) k = p) (hnever : ∀ k, (r.poll k).1 = true)
    (hok : p.outcome = .ok ()) :
    ∃ log, Scanner.Trail (beginning c) x log p.scanner ∧ p.scanner.Lacking := by
  have hchunk : 0 < (beginning c).maxChunk :=
    Nat.lt_of_lt_of_le Nat.one_pos (Nat.le_max_right c.maxChunk 1)
  obtain ⟨bytes, log, k', hhands, htrail, -, -, hhalt⟩ :=
    Scanner.run_halts r (PushSource.ofBytes x) k (Scanner.coherent_fresh _ _) hchunk
  rw [Scanner.parse, if_neg (by simp [beginning, Scanner.fresh])] at hp
  have hp' : Scanner.run r (Scanner.fresh c.schema (max c.maxChunk 1)) (.ofBytes x) k = p := hp
  rw [hp', hok] at hhalt
  rw [hp'] at hhands htrail
  cases hhalt with
  | paused hno => simp [hnever] at hno
  | usedUp _ hheld hlacking =>
    have hbuffer : x = bytes ++ p.source.buffer := (PushSource.buffer_of_hands hhands).1
    rw [show p.source.buffer = [] from hheld, List.append_nil] at hbuffer
    exact ⟨log, hbuffer ▸ htrail, hlacking⟩

/-- What follows a boundary is read as the transcript from there has it. -/
theorem Settled.reading_append (h : Settled c x before r) (hfilter : c.filter = none)
    (hboundary : r.scanner.BetweenElements) (rest : Bytes) :
    let told := (r.scanner.place r.scanner.nextIndex rest).transcript c.schema
    reading c (x ++ rest) =
      (before ++ (Collector.receiver.deliverAll told.events (.ofConfig c)).pending, told.ending) := by
  obtain ⟨log, htrail, hcollected⟩ := h.trail
  obtain ⟨_, -, hmirrors⟩ := h.mirrors hfilter
  have hidle : r.collector.collecting = none :=
    hmirrors.idle (by simp [Scanner.openLeaf?, hboundary.1])
  have hbehind : r.collector.behind before = (Collector.ofConfig c).behind before := by
    rw [h.behind_eq, hidle]
    simp [Collector.behind, Collector.ofConfig]
  have hplace : r.scanner.forecast rest =
      (r.scanner.place r.scanner.nextIndex rest).transcript c.schema := by
    rw [Scanner.forecast_of_header (Scanner.headerIndex_of_id hboundary.1), h.schema_eq]
  rw [reading_of_trail htrail, hplace, hcollected, hbehind, Collector.deliverAll_behind]
  rfl

/-- At a boundary everything so far has a lower number than what is next. -/
theorem Settled.index_lt (h : Settled c x before r) (hboundary : r.scanner.BetweenElements) :
    (∀ m ∈ r.scanner.stack, m.element.index < r.scanner.nextIndex) ∧
      ∀ e ∈ before, e.isFinish = false → e.occurrence.index < r.scanner.nextIndex := by
  obtain ⟨log, htrail, hcollected⟩ := h.trail
  have hledger := htrail.ledger (Scanner.coherent_fresh _ _)
    (Scanner.ledger_of_begun (t := beginning c) rfl rfl rfl rfl)
  obtain ⟨pieces, htells, hstack, hholds⟩ := hledger
  simp only [Scanner.Holds, hboundary.1] at hholds
  rw [hholds.index_eq]
  refine ⟨fun m hm => (hstack m hm).lt_length, fun e he => ?_⟩
  have hstarted : (Collector.receiver.deliverAll log (.ofConfig c)).Started
      (·.index < pieces.length) := by
    apply Collector.Started.deliverAll
    · exact ⟨by simp [Collector.ofConfig], by simp [Collector.ofConfig]⟩
    · intro o size header path hmem
      exact (htells.mentioned _ hmem).lt_length
  rw [hcollected] at hstarted
  exact hstarted.pending e (List.mem_append_left _ he)

/-! ## Padding -/

/-- Behind a boundary without masters of known length padding changes only numbers and offsets. -/
theorem Settled.reading_padded {u : Piece} (h : Settled c x before r) (hfilter : c.filter = none)
    (hboundary : r.scanner.BetweenElements) (hunknown : ∀ m ∈ r.scanner.stack, m.size = .unknown)
    (hu : IsPadding c.schema u) (y : Bytes) :
    let n := r.scanner.nextIndex
    ∃ after ending,
      reading c (x ++ y) = (before ++ after, ending) ∧
        reading c (x ++ (u.raw ++ y)) =
          (before ++ (u.elements c n (openAfter before).reverse ++ after.map (Element.renumber n)),
            ending.mapError (ScanError.moveBy u.raw.length)) ∧
        ∀ e ∈ after, e.isFinish = false → n ≤ e.occurrence.index := by
  intro n
  -- Without padding the rest is read from `p`, with it from `p'`, and behind it `p` has moved.
  let p := r.scanner.place n y
  let p' := r.scanner.place n (u.raw ++ y)
  have hrest (rest : Bytes) : (r.scanner.place n rest).rest = rest := by
    simp [Scanner.place, hboundary.2]
  have hstop (m : OpenMaster) (hm : m ∈ r.scanner.stack) : m.stop? = none :=
    Scanner.stop_of_unknown (hunknown m hm)
  have hbelow := (h.index_lt hboundary).1
  obtain ⟨_, -, hmirrors⟩ := h.mirrors hfilter
  have hpath : r.scanner.path = (openAfter before).reverse :=
    congrArg List.reverse hmirrors.open_eq.symm
  have hmoved : p.Moved n u.raw.length (p'.skip u.raw.length) := by
    refine @Place.moved_skip p p' _ rfl rfl rfl ?_ fun m hm => ⟨hstop m hm, hbelow m hm⟩
    rw [hrest, hrest, List.drop_left]
  have hpassed : p'.transcript c.schema = ((p.transcript c.schema).move n u.raw.length).after
      (u.events c.schema n (openAfter before).reverse) := by
    rw [hu.transcript_eq (hrest _) hstop, hmoved.transcript_eq, ← hpath]
    rfl
  refine ⟨_, _, h.reading_append hfilter hboundary y, ?_, ?_⟩
  · have hcollected := Collector.deliverAll_renumber n (.ofConfig c) (p.transcript c.schema).events
    rw [h.reading_append hfilter hboundary]
    show (before ++ (Collector.receiver.deliverAll (p'.transcript c.schema).events _).pending,
      (p'.transcript c.schema).ending) = _
    rw [hpassed]
    dsimp only [Transcript.after, Transcript.move]
    rw [Receiver.deliverAll_append, hu.deliverAll_events hfilter, Collector.deliverAll_behind]
    exact congrArg (fun k : Collector => (before ++ (_ ++ k.pending), _)) hcollected
  · have hstarted : (Collector.receiver.deliverAll (p.transcript c.schema).events
        (.ofConfig c)).Started (n ≤ ·.index) := by
      apply Collector.Started.deliverAll
      · exact ⟨by simp [Collector.ofConfig], by simp [Collector.ofConfig]⟩
      · intro o size header path hmem
        exact Place.le_of_mem_transcript hmem
    exact hstarted.pending

/-- Padding is invisible. Parsing `x` stops at a boundary where no master of known length is open, `u`
is outside the schema or a global element without children, and `y` is anything. Then a document with
`u` between `x` and `y` gives the elements of the document without it: first those of `x`; then `u`, if
the schema has it, inside all masters that they leave open; then the others, counting one higher what
starts in `y`, that is from number `n` on. An error lies further on by the length of `u`. -/
theorem padding_is_invisible {κ : Type} (c : ReaderConfig) (hfilter : c.filter = none)
    {r : Receiver κ} {k : κ} (hnever : ∀ k, (r.poll k).1 = true) {x y : Bytes} {u : Piece}
    {p : Scanner.Parsed PushSource κ}
    (hp : Scanner.parse r (beginning c) (.ofBytes x) k = p) (hok : p.outcome = .ok ())
    (hboundary : p.scanner.BetweenElements) (hunknown : ∀ m ∈ p.scanner.stack, m.size = .unknown)
    (hu : IsPadding c.schema u) {chunks chunks' : List Bytes} (hplain : chunks.flatten = x ++ y)
    (hpadded : chunks'.flatten = x ++ (u.raw ++ y)) :
    let before := ((ofSource c {}).feed [x]).elements
    let n := p.scanner.nextIndex
    let plain := (ofSource c {}).feedAll chunks
    let padded := (ofSource c {}).feedAll chunks'
    ∃ after : List Element,
      plain.elements = before ++ after ∧
        padded.elements =
          before ++ (u.elements c n (openAfter before).reverse ++ after.map (Element.renumber n)) ∧
        padded.outcome = plain.outcome.mapError (ScanError.moveBy u.raw.length) ∧
        (∀ e ∈ before, e.isFinish = false → e.occurrence.index < n) ∧
        ∀ e ∈ after, e.isFinish = false → n ≤ e.occurrence.index := by
  intro before n plain padded
  obtain ⟨log, htrail, hlacking⟩ := trail_of_parse hp hnever hok
  obtain ⟨taken, reader, hsettled, hscanner⟩ := settled_of_trail htrail hlacking
  obtain rfl : before = taken := (hsettled.feed_eq (by simp)).1
  rw [← hscanner] at hboundary hunknown
  obtain ⟨after, ending, hread, hread', hafter⟩ :=
    hsettled.reading_padded hfilter hboundary hunknown hu y
  have hbefore := (hsettled.index_lt hboundary).2
  rw [hscanner] at hread' hafter hbefore
  have hone := (feedAll_eq_reading c chunks).1
  have hother := (feedAll_eq_reading c chunks').1
  rw [hplain, hread] at hone
  rw [hpadded, hread'] at hother
  obtain ⟨helements, houtcome⟩ := Prod.mk.inj hone
  obtain ⟨helements', houtcome'⟩ := Prod.mk.inj hother
  exact ⟨after, helements, helements', houtcome'.trans (by rw [← houtcome]), hbefore, hafter⟩

/-- The headers of a live segment and of a live cluster in it. -/
def openCluster : Bytes :=
  [0x18, 0x53, 0x80, 0x67, 0xFF, 0x1F, 0x43, 0xB6, 0x75, 0xFF]

/-- They are parsed without a pause. -/
def parsedCluster : Scanner.Parsed PushSource Unit :=
  Scanner.parse ⟨fun _ => (true, ()), fun _ _ => ()⟩ (beginning {}) (PushSource.ofBytes openCluster) ()

/-- A void between the cluster and its timestamp, behind which a byte begins no id. -/
theorem padding_is_invisible_of_void :
    let before := ((ofSource {} {}).feed [openCluster]).elements
    let plain := (ofSource {} {}).feedAll [openCluster, [0xE7, 0x81, 5, 0]]
    let padded := (ofSource {} {}).feedAll [openCluster ++ [0xEC, 0x81, 7], [0xE7, 0x81, 5, 0]]
    parsedCluster.scanner.nextIndex = 2 ∧
      parsedCluster.scanner.stack.map OpenMaster.size = [.unknown, .unknown] ∧
      plain.outcome = .error (.header 13 (.idTooWide 9)) ∧
      padded.outcome = .error (.header 16 (.idTooWide 9)) ∧
      padded.elements.map (fun e => (e.occurrence.index, e.depth)) =
        [(0, 0), (1, 1), (2, 2), (3, 2)] ∧
      ∃ after, plain.elements = before ++ after ∧
        padded.elements =
          before ++ (Piece.elements {} ⟨[0xEC, 0x81], [7]⟩ 2 (openAfter before).reverse ++
            after.map (Element.renumber 2)) := by
  have hparsed : Scanner.parse (⟨fun _ => (true, ()), fun _ _ => ()⟩ : Receiver Unit)
      (beginning {}) (PushSource.ofBytes openCluster) () = parsedCluster := rfl
  have hnext : parsedCluster.scanner.nextIndex = 2 := by cbv
  have hok : parsedCluster.outcome = .ok () := by cbv
  have hboundary : parsedCluster.scanner.BetweenElements := by constructor <;> cbv
  have hsizes : parsedCluster.scanner.stack.map OpenMaster.size = [.unknown, .unknown] := by cbv
  have hunknown : ∀ m ∈ parsedCluster.scanner.stack, m.size = .unknown := by
    intro m hm
    simpa [hsizes] using List.mem_map_of_mem (f := OpenMaster.size) hm
  have hvoid : IsPadding Matroska.schema ⟨[0xEC, 0x81], [7]⟩ := by
    let void : ElementDecl := { id := 0xEC, name := "Void", level := -1, type := .binary }
    have hget : Matroska.schema.get? 0xEC = some void := by cbv
    have hdecl : Piece.decl? Matroska.schema ⟨[0xEC, 0x81], [7]⟩ = some void := by cbv
    refine ⟨⟨⟨0xEC, .known 1, some 1⟩, by cbv, ?_⟩, ?_⟩
    · simp [hget, void, ElementDecl.isMaster]
    · simp [hdecl, void, ElementDecl.isMaster, ElementDecl.isGlobal]
  have hjoined : [openCluster, [0xE7, 0x81, 5, 0]].flatten = openCluster ++ [0xE7, 0x81, 5, 0] := rfl
  have hjoined' : [openCluster ++ [0xEC, 0x81, 7], [0xE7, 0x81, 5, 0]].flatten =
      openCluster ++ ([0xEC, 0x81, 7] ++ [0xE7, 0x81, 5, 0]) := rfl
  have hplain : (reading {} (openCluster ++ [0xE7, 0x81, 5, 0])).2 =
      .error (.header 13 (.idTooWide 9)) := by cbv
  have hpadded : (reading {} (openCluster ++ ([0xEC, 0x81, 7] ++ [0xE7, 0x81, 5, 0]))).2 =
      .error (.header 16 (.idTooWide 9)) := by cbv
  have hdepths : (reading {} (openCluster ++ ([0xEC, 0x81, 7] ++ [0xE7, 0x81, 5, 0]))).1.map
      (fun e => (e.occurrence.index, e.depth)) = [(0, 0), (1, 1), (2, 2), (3, 2)] := by cbv
  rw [← hjoined, ← (feedAll_eq_reading {} _).1] at hplain
  rw [← hjoined', ← (feedAll_eq_reading {} _).1] at hpadded hdepths
  obtain ⟨after, hafter, hbehind, -⟩ :=
    padding_is_invisible {} rfl (fun _ => rfl) hparsed hok hboundary hunknown hvoid hjoined hjoined'
  rw [hnext] at hbehind
  exact ⟨hnext, hsizes, hplain, hpadded, hdepths, after, hafter, hbehind⟩

end Reader

end Ebml
