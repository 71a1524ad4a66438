import Ebml.Listing
import Ebml.Proofs.Reader.Chunking
import Ebml.Proofs.Scanner.Feeding
import Ebml.Proofs.Scanner.Nesting

/-!
# Elements account for the input

Put together from well-nested events, elements have the bytes of these events and no others
(`Nested.collected`). As the events of a scan tell the pieces of its input, the elements of an
unfiltered reader give back the input less what is outside the schema and a header cut short.
-/

namespace Ebml

/-- Well-nested events leave nothing half collected, and without a filter the elements that come of
them have the bytes of the events. -/
theorem Nested.collected {path : List Occurrence} {events : List Event} (h : Nested path events) :
    ∀ c : Collector, c.filter = none → c.collecting = none →
      ∃ elements, Collector.receiver.deliverAll events c = c.enqueueAll elements ∧
        elements.flatMap Element.raw = events.flatMap Event.raw := by
  -- The elements waiting do not matter for what follows, so the induction is over all collectors
  -- that collect nothing.
  induction h with
  | nil =>
    intro c _ _
    exact ⟨[], (c.enqueueAll_nil).symm, rfl⟩
  | @leaf path o size header chunks later hleaf _ ih =>
    intro c hfilter hnone
    have hwants := Collector.wants_of_filter hfilter o.decl.id
    have hone := Collector.deliverAll_leaf hwants hleaf hnone size header path chunks
    generalize hl : Element.leaf _ = l at hone
    obtain ⟨elements, hlater, hraw⟩ := ih (c.enqueueAll [l]) hfilter hnone
    refine ⟨l :: elements, ?_, ?_⟩
    · have hsplit : Event.start o size header path ::
            (chunks.map (.content o) ++ .finish o path :: later) =
          (.start o size header path :: (chunks.map (.content o) ++ [.finish o path])) ++ later := by
        simp
      rw [hsplit, Receiver.deliverAll_append, hone, hlater, Collector.enqueueAll_append]
      rfl
    · have hdata : (chunks.map (Event.content o)).flatMap Event.raw = chunks.flatten := by
        simp [List.flatMap_map, Event.raw, List.flatMap_id']
      rw [List.flatMap_cons, hraw, ← hl]
      simp [Element.raw, Event.raw, hdata]
  | @master path o size header inner later hmaster _ _ ihinner ihlater =>
    intro c hfilter hnone
    obtain ⟨elements, hinner, hraw⟩ :=
      ihinner (c.enqueueAll [.start o (c.capture path) size header]) hfilter hnone
    have hone := Collector.deliverAll_master (Collector.wants_of_filter hfilter _) hmaster hinner
    generalize hes : Element.start o (c.capture path) size header ::
      (elements ++ [.finish o (c.capture path)]) = es at hone
    obtain ⟨more, hlater, hraw'⟩ := ihlater (c.enqueueAll es) hfilter hnone
    refine ⟨es ++ more, ?_, ?_⟩
    · have hsplit : Event.start o size header path :: (inner ++ .finish o path :: later) =
          (.start o size header path :: (inner ++ [.finish o path])) ++ later := by
        simp
      rw [hsplit, Receiver.deliverAll_append, hone, hlater, Collector.enqueueAll_append]
    · rw [List.flatMap_append, hraw', ← hes]
      simp [Element.raw, Event.raw, hraw]

namespace Reader

/-- The elements of a reader that is through without a filter account for the whole input. -/
theorem Through.accounts {c : ReaderConfig} {input : Bytes} {taken : List Element}
    {r : Reader PushSource} (h : Through c input taken r) (hfilter : c.filter = none)
    (hpending : r.collector.hasPending = false) :
    ∃ pieces tail, Divides c.schema pieces tail input ∧
      taken.flatMap Element.raw = pieces.flatMap (Piece.kept c.schema) := by
  obtain ⟨log, t, htrail, hlacking, -, hcollected⟩ := h
  have hco : (beginning c).Coherent := Scanner.coherent_fresh _ _
  obtain ⟨pieces, tail, hdivides, htells⟩ :=
    (htrail.ledger hco (Scanner.ledger_of_begun rfl rfl rfl rfl)).divides hlacking
  rw [htrail.frame.schema_eq] at hdivides htells
  refine ⟨pieces, tail, hdivides, ?_⟩
  obtain ⟨elements, hall, hraw⟩ := htrail.nested_close.collected (.ofConfig c) hfilter rfl
  have helements : elements = taken := by
    have hqueue := congrArg Collector.pending (hall.symm.trans hcollected)
    simp only [Collector.hasPending, Bool.not_eq_false', List.isEmpty_iff] at hpending
    simpa [Collector.enqueueAll, Collector.behind, Collector.ofConfig, hpending] using hqueue
  -- Closing brings no bytes, so the events before it already have them all.
  have hclose : t.close.1.flatMap Event.raw = [] := by
    rw [List.flatMap_eq_nil_iff]
    intro e he
    obtain ⟨o, path, rfl⟩ := Scanner.finish_of_mem_close he
    rfl
  rw [← helements, hraw, List.flatMap_append, hclose, List.append_nil]
  exact htells.raw

end Reader

/-! ## Accounts -/

theorem Entry.raw_ofElement (e : Element) : (Entry.ofElement e).raw = e.raw := by
  cases e <;> rfl

theorem Listing.reconstruct_ofElement (elements : List Element) :
    reconstruct (elements.map Entry.ofElement) = elements.flatMap Element.raw := by
  rw [reconstruct, List.flatMap_map]
  congr 1
  funext e
  exact Entry.raw_ofElement e

/-- Every byte has its place. A scan counts the bytes that its source handed out. After a parse that
neither failed nor was paused they divide into pieces that the callbacks tell, and what an unfiltered
reader hands out to the end, written one after the other, is the input less the pieces outside the
schema and the header cut short. -/
theorem bytes_accounted (schema : Schema) (maxChunk : Nat) (hchunk : 1 ≤ maxChunk) :
    (∀ input log t s, Scanner.Feeding schema maxChunk input log t s →
      t.consumed + s.buffer.length = input.length ∧
        ∀ (κ : Type) (r : Receiver κ) (k : κ),
          let p := Scanner.parse r.watched t s { state := k }
          p.outcome = .ok () → p.receiver.willing = true →
            ∃ pieces tail, Divides schema pieces tail input ∧
              Tells schema pieces (log ++ p.receiver.callbacks)) ∧
      ∀ (c : ReaderConfig) (chunks : List Bytes), c.schema = schema → c.filter = none →
        let fed := (Reader.ofSource c {}).feedAll chunks
        fed.outcome = .ok () →
          ∃ pieces tail, Divides schema pieces tail chunks.flatten ∧
            fed.elements.flatMap Element.raw = pieces.flatMap (Piece.kept schema) ∧
            Listing.reconstruct (fed.elements.map Entry.ofElement) =
              pieces.flatMap (Piece.kept schema) := by
  refine ⟨fun input log t s hfeeding => ⟨hfeeding.consumed_eq, ?_⟩, ?_⟩
  · intro κ r k p hok hwilling
    exact hfeeding.divides hchunk r k hok hwilling
  · rintro c chunks rfl hfilter fed hok
    have hspec := Reader.feedAll_spec c chunks
    rw [show ((Reader.ofSource c {}).feedAll chunks).outcome = .ok () from hok] at hspec
    obtain ⟨pieces, tail, hdivides, hraw⟩ := hspec.1.accounts hfilter hspec.2
    refine ⟨pieces, tail, hdivides, hraw, ?_⟩
    rw [Listing.reconstruct_ofElement]
    exact hraw

/-- A void element, one outside the schema and the first byte of a header, parsed at once and read
byte by byte. -/
theorem bytes_accounted_of_skipped :
    let input : Bytes := [0xEC, 0x82, 7, 8, 0x81, 0x81, 9, 0x1A]
    let quiet : Watch Collector := { state := .ofConfig { filter := some [] } }
    let p := Scanner.parse Collector.receiver.watched (Scanner.fresh Matroska.schema 1)
      (PushSource.push {} input) quiet
    let fed := (Reader.ofSource {} {}).feedAll (cut [1] input)
    p.receiver.callbacks.length = 4 ∧
      (∃ pieces tail, Divides Matroska.schema pieces tail input ∧
        Tells Matroska.schema pieces p.receiver.callbacks) ∧
      fed.outcome = .ok () ∧
      ∃ pieces tail, Divides Matroska.schema pieces tail input ∧
        Listing.reconstruct (fed.elements.map Entry.ofElement) =
          pieces.flatMap (Piece.kept Matroska.schema) := by
  have hends : (Place.transcript Matroska.schema
      { rest := [0xEC, 0x82, 7, 8, 0x81, 0x81, 9, 0x1A] }).ending = .ok () := by cbv
  have hreading := congrArg Prod.snd
    (Reader.feedAll_eq_reading {} (cut [1] [0xEC, 0x82, 7, 8, 0x81, 0x81, 9, 0x1A])).1
  rw [flatten_cut] at hreading
  have hok := hreading.trans hends
  obtain ⟨pieces, tail, hdivides, -, hraw⟩ :=
    (bytes_accounted Matroska.schema 1 (Nat.le_refl 1)).2 {} _ rfl rfl hok
  rw [flatten_cut] at hdivides
  exact ⟨by cbv,
    ((bytes_accounted Matroska.schema 1 (Nat.le_refl 1)).1 _ _ _ _
      (.push [0xEC, 0x82, 7, 8, 0x81, 0x81, 9, 0x1A] rfl .begin)).2 _ Collector.receiver
      (.ofConfig { filter := some [] }) (by cbv) (by cbv),
    hok, pieces, tail, hdivides, hraw⟩

end Ebml
