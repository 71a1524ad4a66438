import Ebml.Proofs.Reader.Chunking
import Ebml.Proofs.Reader.Mirroring

/-!
# Readers that took all there is

Pushed chunk by chunk, with every element taken as soon as it is there, a document leaves its reader
dry (`feed_settles`). Where such a reader stands depends on the bytes alone and not on the chunks
(`Settled.unique`), so feeding can be broken off anywhere and gone on with: the elements are those of
feeding at once (`feed_chunking`, `feed_append`). Without a filter its collector mirrors its scan, and
what closing adds can be told from the elements before it.
-/

namespace Ebml

namespace Scanner

/-- From one scanner the same bytes lead to one scanner that lacks more, and in the meantime they tell
the same. -/
theorem Trail.unique {t t₁ t₂ : Scanner} {bytes : Bytes} {log₁ log₂ : List Event}
    (h₁ : Trail t bytes log₁ t₁) (h₂ : Trail t bytes log₂ t₂) (hco : t.Coherent)
    (hlacking₁ : t₁.Lacking) (hlacking₂ : t₂.Lacking) :
    t₁ = t₂ ∧ ∀ k, Collector.receiver.deliverAll log₁ k = Collector.receiver.deliverAll log₂ k := by
  have hrest₁ := Lacking.atRest hlacking₁
  have hrest₂ := Lacking.atRest hlacking₂
  obtain ⟨-, htold, hunnumbered⟩ :=
    (h₁.bytewise hco).unique (h₂.bytewise hco) hrest₁.rests hrest₂.rests rfl
  refine ⟨eq_of_atRest (h₁.coherent hco) (h₂.coherent hco) hrest₁ hrest₂ hunnumbered, fun k => ?_⟩
  rw [← Collector.deliverAll_bytewise, htold, Collector.deliverAll_bytewise]

end Scanner

namespace Reader

variable {c : ReaderConfig} {input : Bytes} {taken taken' : List Element} {r r' : Reader PushSource}

namespace Settled

theorem trail (h : Settled c input taken r) :
    ∃ log, Scanner.Trail (beginning c) input log r.scanner ∧
      Collector.receiver.deliverAll log (.ofConfig c) = r.collector.behind taken := by
  obtain ⟨bytes, log, htrail, hinput, hcollected⟩ := h.underWay
  rw [h.dry.buffer_eq, List.append_nil] at hinput
  exact ⟨log, hinput ▸ htrail, hcollected⟩

theorem pending_eq (h : Settled c input taken r) : r.collector.pending = [] := by
  simpa [Collector.hasPending] using h.dry.hasPending_eq

/-- With the elements handed out put back, the collector is that of the beginning but for them and
the leaf being collected. -/
theorem behind_eq (h : Settled c input taken r) :
    r.collector.behind taken =
      { Collector.ofConfig c with pending := taken, collecting := r.collector.collecting } := by
  obtain ⟨log, -, hcollected⟩ := h.trail
  obtain ⟨pending, collecting, hkeeps⟩ := Collector.deliverAll_keeps log (.ofConfig c)
  rw [hkeeps] at hcollected
  have hpending := h.pending_eq
  obtain ⟨_, _, k⟩ := r
  cases k
  simp_all [Collector.behind, Collector.ofConfig]

/-- What settled readers handed out and where they stand is up to the input. -/
theorem unique (h : Settled c input taken r) (h' : Settled c input taken' r') :
    taken = taken' ∧ r.scanner = r'.scanner ∧ r.collector = r'.collector := by
  obtain ⟨log, htrail, hcollected⟩ := h.trail
  obtain ⟨log', htrail', hcollected'⟩ := h'.trail
  obtain ⟨hscanner, hsame⟩ := htrail.unique htrail' (Scanner.coherent_fresh _ _) h.dry.lacking
    h'.dry.lacking
  rw [hsame, hcollected'] at hcollected
  have htaken : taken = taken' := by
    have hpending := congrArg Collector.pending hcollected
    simpa [Collector.behind, h.pending_eq, h'.pending_eq] using hpending.symm
  subst htaken
  refine ⟨rfl, hscanner, ?_⟩
  obtain ⟨⟨_, _⟩, _, k⟩ := r
  obtain ⟨⟨_, _⟩, _, k'⟩ := r'
  cases k
  cases k'
  simp_all [Collector.behind]

/-- What closing adds completes the elements of the document. -/
theorem reading_eq (h : Settled c input taken r) :
    reading c input =
      ((Collector.receiver.deliverAll r.scanner.close.1 (r.collector.behind taken)).pending,
        .ok ()) := by
  rw [Collector.deliverAll_behind]
  exact (h.underWay.close h.dry.buffer_eq h.dry.lacking).reading_eq

/-- Without a filter the elements handed out, together with the leaf being collected, tell what the
scan knows. -/
theorem mirrors (h : Settled c input taken r) (hfilter : c.filter = none) :
    ∃ log, r.scanner.Ledger input log ∧
      Mirrors r.scanner log
        { Collector.ofConfig c with pending := taken, collecting := r.collector.collecting } := by
  obtain ⟨log, htrail, hcollected⟩ := h.trail
  have hco := Scanner.coherent_fresh c.schema (max c.maxChunk 1)
  have hledger := Scanner.ledger_of_begun (t := beginning c) rfl rfl rfl rfl
  have hmirrors := htrail.mirrors hco (Scanner.kinds_fresh _ _) hledger
    (mirrors_ofConfig hfilter _ rfl rfl)
  rw [hcollected, h.behind_eq] at hmirrors
  exact ⟨log, htrail.ledger hco hledger, hmirrors⟩

theorem schema_eq (h : Settled c input taken r) : r.scanner.schema = c.schema := by
  obtain ⟨log, htrail, -⟩ := h.trail
  exact htrail.frame.schema_eq

theorem kinds (h : Settled c input taken r) : r.scanner.Kinds := by
  obtain ⟨log, htrail, -⟩ := h.trail
  exact htrail.kinds (Scanner.kinds_fresh _ _)

end Settled

/-! ## Feeding -/

/-- A trail to where bytes are lacking leads a reader there. -/
theorem settled_of_trail {t : Scanner} {log : List Event}
    (htrail : Scanner.Trail (beginning c) input log t) (hlacking : t.Lacking) :
    ∃ taken r, Settled c input taken r ∧ r.scanner = t := by
  let k := Collector.receiver.deliverAll log (.ofConfig c)
  refine ⟨k.pending, ⟨{}, t, { k with pending := [] }⟩, ⟨⟨input, log, htrail, ?_, ?_⟩, ?_⟩, rfl⟩
  · exact (List.append_nil _).symm
  · simp [Collector.behind, k]
  · exact ⟨rfl, rfl, hlacking⟩

/-- What a settled reader handed out is what feeding the same bytes hands out. -/
theorem Settled.feed_eq (h : Settled c input taken r) {chunks : List Bytes}
    (hinput : chunks.flatten = input) :
    ((ofSource c {}).feed chunks).elements = taken ∧
      ((ofSource c {}).feed chunks).outcome = .ok () := by
  subst hinput
  have hfed := feed_ofSource c chunks
  generalize (ofSource c {}).feed chunks = fed at *
  obtain ⟨elements, outcome, r'⟩ := fed
  cases outcome with
  | ok u => exact ⟨(hfed.unique h).1, rfl⟩
  | error e =>
    have hreading := h.reading_eq.symm.trans (reading_of_failed hfed)
    simp at hreading

/-- Until the input ends its chunks do not matter either. -/
theorem feed_chunking (c : ReaderConfig) {chunks chunks' : List Bytes}
    (h : chunks.flatten = chunks'.flatten) :
    ((ofSource c {}).feed chunks).elements = ((ofSource c {}).feed chunks').elements ∧
      ((ofSource c {}).feed chunks).outcome = ((ofSource c {}).feed chunks').outcome := by
  have hone := feed_ofSource c chunks
  have hother := feed_ofSource c chunks'
  rw [← h] at hother
  -- A reader that settled knows what any other chunks come to. If both fail, both tell what the
  -- whole input is read as.
  cases houtcome : ((ofSource c {}).feed chunks).outcome with
  | ok u =>
    rw [houtcome] at hone
    obtain ⟨helements, hok⟩ := hone.feed_eq h.symm
    exact ⟨helements.symm, hok.symm⟩
  | error e =>
    cases houtcome' : ((ofSource c {}).feed chunks').outcome with
    | ok u =>
      rw [houtcome'] at hother
      have hok := (hother.feed_eq rfl).2
      rw [houtcome] at hok
      simp at hok
    | error e' =>
      rw [houtcome] at hone
      rw [houtcome'] at hother
      obtain ⟨helements, herror⟩ :=
        Prod.mk.inj ((reading_of_failed hone).symm.trans (reading_of_failed hother))
      exact ⟨helements, herror⟩

/-- Feeding can be broken off and gone on with. -/
theorem feed_append (r : Reader PushSource) (chunks more : List Bytes)
    (hok : (r.feed chunks).outcome = .ok ()) :
    (r.feed (chunks ++ more)).elements =
      (r.feed chunks).elements ++ ((r.feed chunks).reader.feed more).elements := by
  induction chunks generalizing r with
  | nil => rfl
  | cons chunk rest ih =>
    rw [List.cons_append, feed, feed] at *
    dsimp only at *
    generalize (r.push chunk).takeAvailable = now at *
    obtain ⟨elements, outcome, r'⟩ := now
    cases outcome with
    | error e => simp at hok
    | ok u =>
      dsimp only at hok ⊢
      rw [ih r' hok, List.append_assoc]

/-- Draining a reader that took all there is closes its scan. -/
theorem feedAll_of_fed {chunks : List Bytes} (hok : ((ofSource c {}).feed chunks).outcome = .ok ()) :
    let fed := (ofSource c {}).feed chunks
    ((ofSource c {}).feedAll chunks).elements =
        (Collector.receiver.deliverAll fed.reader.scanner.close.1
          (fed.reader.collector.behind fed.elements)).pending ∧
      ((ofSource c {}).feedAll chunks).outcome = .ok () := by
  have hsettled := feed_ofSource c chunks
  rw [hok] at hsettled
  exact Prod.mk.inj ((feedAll_eq_reading c chunks).1.trans hsettled.reading_eq)

end Reader

end Ebml
